import Susanow.Base.FirstMatch
import Susanow.Vnfs.L3fwd
import Mathlib.Data.List.Find

/-! Routes of the L3 forwarder.

The forwarder scans its table for the first route that matches, under a mask it adds up bit
by bit; its lookup tables are filled with the same routes and not asked. The scan is
longest-prefix match when no route stands behind a shorter one that covers it, as in the
table there is. -/
namespace Susanow
namespace L3fwd
open Proc

/-! ### Prefixes -/

/-- The first `depth` bits. -/
def netMask (depth : Nat) : BitVec 32 := BitVec.allOnes 32 <<< (32 - depth)

/-- The loop adds up the mask of every depth an address has. -/
theorem mask_eq_netMask {depth : Nat} (h : depth ≤ 32) : mask depth = netMask depth := by
  have hall : ∀ d : Fin 33, mask d = netMask d := by decide
  exact hall ⟨depth, Nat.lt_succ_of_le h⟩

theorem getMsbD_netMask {depth j : Nat} (hdepth : depth ≤ 32) :
    (netMask depth).getMsbD j = decide (j < depth) := by
  rw [netMask, BitVec.getMsbD_shiftLeft, BitVec.getMsbD_allOnes]
  by_cases hj : j < depth
  · simp [hj, show j + (32 - depth) < 32 by omega]
  · simp [hj, show ¬j + (32 - depth) < 32 by omega]

namespace Ipv4L3fwdLpmRoute

/-- The route matches the address: they have the first `depth` bits in common. -/
def Covers (r : Ipv4L3fwdLpmRoute) (a : BitVec 32) : Prop := ∀ j < r.depth, a.getMsbD j = r.ip.getMsbD j

instance (r : Ipv4L3fwdLpmRoute) (a : BitVec 32) : Decidable (r.Covers a) :=
  inferInstanceAs (Decidable (∀ j < r.depth, a.getMsbD j = r.ip.getMsbD j))

/-- Masks compare prefixes. -/
theorem and_netMask_eq_iff {r : Ipv4L3fwdLpmRoute} (hr : r.depth ≤ 32) (a : BitVec 32) :
    a &&& netMask r.depth = r.ip &&& netMask r.depth ↔ r.Covers a := by
  constructor
  · intro h j hj
    have hbit := congrArg (BitVec.getMsbD · j) h
    simpa [getMsbD_netMask hr, hj] using hbit
  · intro h
    refine BitVec.eq_of_getMsbD_eq fun j _ => ?_
    rw [BitVec.getMsbD_and, BitVec.getMsbD_and, getMsbD_netMask hr]
    by_cases hj : j < r.depth
    · rw [h j hj]
    · simp [hj]

/-- `q` is a shorter prefix that covers `r`. -/
def Shadows (q r : Ipv4L3fwdLpmRoute) : Prop := q.depth < r.depth ∧ q.Covers r.ip

instance (q r : Ipv4L3fwdLpmRoute) : Decidable (q.Shadows r) := inferInstanceAs (Decidable (_ ∧ _))

/-- A shorter prefix that has an address in common with a longer one covers it. -/
theorem Covers.shadows {q r : Ipv4L3fwdLpmRoute} {a : BitVec 32} (hq : q.Covers a) (hr : r.Covers a)
    (hlt : q.depth < r.depth) : q.Shadows r := by
  refine ⟨hlt, fun j hj => ?_⟩
  rw [← hr j (hj.trans hlt), hq j hj]

end Ipv4L3fwdLpmRoute

open Ipv4L3fwdLpmRoute (Covers Shadows)

/-! ### The scan -/

/-- The loop over a table. -/
def scan (routes : List Ipv4L3fwdLpmRoute) (tmp : BitVec 32) : Option Ipv4L3fwdLpmRoute :=
  routes.find? fun route => tmp &&& mask route.depth == route.ip &&& mask route.depth

def longestPrefix (routes : List Ipv4L3fwdLpmRoute) (a : BitVec 32) : Option Ipv4L3fwdLpmRoute :=
  bestMatch (fun r a => decide (r.Covers a)) Ipv4L3fwdLpmRoute.depth routes a

/-- A table that can be scanned: its depths are those of addresses, and no route stands behind a
shorter one that covers it. -/
structure Scannable (routes : List Ipv4L3fwdLpmRoute) : Prop where
  depth_le : ∀ r ∈ routes, r.depth ≤ 32
  ordered : routes.Pairwise fun q r => ¬q.Shadows r

theorem lpmGetIpv4Dport_eq_scan (dstAddr : BitVec 32) (portid : Nat) :
    lpmGetIpv4Dport dstAddr portid =
      ((scan ipv4Routes (rteBeToCpu32 dstAddr)).map Ipv4L3fwdLpmRoute.ifOut).getD (portid % 256) := by
  rw [lpmGetIpv4Dport, scan]
  split <;> rename_i h <;> rw [h] <;> rfl

theorem scan_eq_firstMatch {routes : List Ipv4L3fwdLpmRoute} (hdepth : ∀ r ∈ routes, r.depth ≤ 32) (a : BitVec 32) :
    scan routes a = firstMatch (fun r a => decide (r.Covers a)) routes a := by
  refine List.find?_congr fun r hr => ?_
  rw [mask_eq_netMask (hdepth r hr), Bool.beq_eq_decide_eq]
  exact decide_eq_decide.mpr (Ipv4L3fwdLpmRoute.and_netMask_eq_iff (hdepth r hr) a)

theorem scan_eq_longestPrefix {routes : List Ipv4L3fwdLpmRoute} (h : Scannable routes) (a : BitVec 32) :
    scan routes a = longestPrefix routes a := by
  rw [scan_eq_firstMatch h.depth_le, longestPrefix]
  refine firstMatch_eq_bestMatch (h.ordered.imp fun hnot hlt b hb => ?_) a
  exact hnot ((of_decide_eq_true hb.1).shadows (of_decide_eq_true hb.2) hlt)

theorem scannable_ipv4Routes : Scannable ipv4Routes := ⟨by decide, by decide⟩

/-! ### The lookup table -/

/-- `rte_lpm`, over tables `T`. -/
structure RteLpm (T : Type) where
  create : String → Option T
  -- what is returned, and the table
  add : T → BitVec 32 → Nat → Nat → Int × T
  lookup : T → BitVec 32 → Option Nat

/-- What is relied on: a table has a next hop for each prefix it was given, the last one, and a lookup
finds that of the longest prefix of an address. -/
structure RteLpm.Lawful {T : Type} (lpm : RteLpm T) (hop : T → Nat → BitVec 32 → Option Nat) : Prop where
  create : ∀ s t, lpm.create s = some t → ∀ d p, hop t d p = none
  add : ∀ t ip depth nextHop, 0 ≤ (lpm.add t ip depth nextHop).1 → ∀ d p,
    hop (lpm.add t ip depth nextHop).2 d p =
      if d = depth ∧ p = ip &&& netMask depth then some nextHop else hop t d p
  hit : ∀ t a d h, d ≤ 32 → hop t d (a &&& netMask d) = some h →
    (∀ d', d < d' → d' ≤ 32 → hop t d' (a &&& netMask d') = none) → lpm.lookup t a = some h
  miss : ∀ t a, (∀ d ≤ 32, hop t d (a &&& netMask d) = none) → lpm.lookup t a = none

section Setup
variable {T : Type} (lpm : RteLpm T)

/-- The loop's body for `routes[i]`; `rte_exit` is a throw. -/
def addRoute (socketid : Nat) (routes : List Ipv4L3fwdLpmRoute) (i : Nat) : Proc T Unit := do
  match routes[i]? with
  | none => crash .outOfBounds
  | some r =>
    if 32 ≤ r.ifOut then crash .shift
    else if (1 : BitVec 32) <<< r.ifOut = 0 then pure ()
    else do
      let t ← get
      let (ret, t') := lpm.add t r.ip r.depth r.ifOut
      if ret < 0 then
        Proc.throw ("Unable to add entry " ++ toString i ++ " to the l3fwd LPM table on socket " ++ toString socketid)
      else Proc.set t'

/-- `setup_lpm` -/
def setupLpm (socketid : Nat) (routes : List Ipv4L3fwdLpmRoute) (nRoutes : Nat) : Proc Unit T :=
  match lpm.create ("IPV4_L3FWD_LPM_" ++ toString socketid) with
  | none => Proc.throw ("Unable to create the l3fwd LPM table on socket " ++ toString socketid)
  | some t => fresh t (forRange (addRoute lpm socketid routes) nRoutes)

end Setup

/-- The next hop that is left for a prefix when all routes are added in turn. -/
def installed (routes : List Ipv4L3fwdLpmRoute) (d : Nat) (p : BitVec 32) : Option Nat :=
  routes.foldl (fun h r => if d = r.depth ∧ p = r.ip &&& netMask r.depth then some r.ifOut else h) none

theorem installed_concat (routes : List Ipv4L3fwdLpmRoute) (r : Ipv4L3fwdLpmRoute) (d : Nat) (p : BitVec 32) :
    installed (routes ++ [r]) d p =
      if d = r.depth ∧ p = r.ip &&& netMask r.depth then some r.ifOut else installed routes d p := by
  rw [installed, List.foldl_append]
  rfl

section Installed
variable {routes : List Ipv4L3fwdLpmRoute}

theorem installed_eq_none {d : Nat} {p : BitVec 32} (h : ∀ r ∈ routes, ¬(d = r.depth ∧ p = r.ip &&& netMask r.depth)) :
    installed routes d p = none := by
  induction routes using List.reverseRecOn with
  | nil => rfl
  | append_singleton routes q ih =>
    rw [installed_concat, if_neg (h q (by simp))]
    exact ih fun r hr => h r (List.mem_append_left _ hr)

/-- No prefix has two routes. -/
def Distinct (routes : List Ipv4L3fwdLpmRoute) : Prop :=
  routes.Pairwise fun q r => ¬(r.depth = q.depth ∧ r.ip &&& netMask r.depth = q.ip &&& netMask q.depth)

instance (routes : List Ipv4L3fwdLpmRoute) : Decidable (Distinct routes) :=
  inferInstanceAs (Decidable (List.Pairwise _ _))

theorem installed_of_mem (hd : Distinct routes) {r : Ipv4L3fwdLpmRoute} (hr : r ∈ routes) :
    installed routes r.depth (r.ip &&& netMask r.depth) = some r.ifOut := by
  induction routes using List.reverseRecOn with
  | nil => cases hr
  | append_singleton routes q ih =>
    obtain ⟨hinit, -, hlast⟩ := List.pairwise_append.mp hd
    rw [installed_concat]
    rcases List.mem_append.mp hr with hr | hr
    · have hne := hlast r hr q (List.mem_singleton_self q)
      rw [if_neg fun h => hne ⟨h.1.symm, h.2.symm⟩, ih hinit hr]
    · rw [List.mem_singleton.mp hr, if_pos ⟨rfl, rfl⟩]

end Installed

section Setup
variable {T : Type} {lpm : RteLpm T} {hop : T → Nat → BitVec 32 → Option Nat}
  {routes : List Ipv4L3fwdLpmRoute} {socketid : Nat}

theorem addRoute_hop (h : lpm.Lawful hop) {i : Nat} {t t' : T}
    (hrun : addRoute lpm socketid routes i t = .ret () t') :
    ∃ r, routes[i]? = some r ∧ ∀ d p, hop t' d p =
      if d = r.depth ∧ p = r.ip &&& netMask r.depth then some r.ifOut else hop t d p := by
  unfold addRoute at hrun
  cases hr : routes[i]? with
  | none =>
    rw [hr] at hrun
    cases hrun
  | some r =>
    refine ⟨r, rfl, ?_⟩
    simp only [hr] at hrun
    by_cases hshift : 32 ≤ r.ifOut
    · rw [if_pos hshift] at hrun
      cases hrun
    · have hbit : (1 : BitVec 32) <<< r.ifOut ≠ 0 := by
        have hall : ∀ k : Fin 32, (1 : BitVec 32) <<< (k : Nat) ≠ 0 := by decide
        exact hall ⟨r.ifOut, not_le.mp hshift⟩
      rw [if_neg hshift, if_neg hbit, get_bind] at hrun
      by_cases hret : (lpm.add t r.ip r.depth r.ifOut).1 < 0
      · simp only [if_pos hret] at hrun
        cases hrun
      · simp only [if_neg hret] at hrun
        cases hrun
        exact h.add t r.ip r.depth r.ifOut (not_lt.mp hret)

/-- Round by round, the table holds what the routes so far leave. -/
theorem forRange_addRoute_hop (h : lpm.Lawful hop) {k : Nat} {t t' : T} (hnew : ∀ d p, hop t d p = none)
    (hrun : forRange (addRoute lpm socketid routes) k t = .ret () t') (d : Nat) (p : BitVec 32) :
    hop t' d p = installed (routes.take k) d p := by
  induction k generalizing t' with
  | zero =>
    cases hrun
    exact hnew d p
  | succ k ih =>
    obtain ⟨_, u, hu, hlast⟩ := bind_eq_ret hrun
    obtain ⟨r, hr, hstep⟩ := addRoute_hop h hlast
    obtain ⟨hk, rfl⟩ := List.getElem?_eq_some_iff.mp hr
    rw [List.take_succ_eq_append_getElem hk, installed_concat, hstep, ih hu]

theorem setupLpm_hop (h : lpm.Lawful hop) {t : T}
    (hrun : setupLpm lpm socketid routes routes.length () = .ret t ()) (d : Nat) (p : BitVec 32) :
    hop t d p = installed routes d p := by
  unfold setupLpm at hrun
  cases hc : lpm.create ("IPV4_L3FWD_LPM_" ++ toString socketid) with
  | none =>
    rw [hc] at hrun
    cases hrun
  | some t₀ =>
    simp only [hc, fresh] at hrun
    cases hloop : forRange (addRoute lpm socketid routes) routes.length t₀ with
    | ret a t₁ =>
      rw [hloop] at hrun
      cases hrun
      rw [forRange_addRoute_hop h (h.create _ _ hc) hloop, List.take_length]
    | throws w t₁ =>
      rw [hloop] at hrun
      cases hrun
    | crash c =>
      rw [hloop] at hrun
      cases hrun

/-- A table filled with routes of which no two have one prefix is looked up as they say. -/
theorem lookup_eq_longestPrefix (h : lpm.Lawful hop) (hdepth : ∀ r ∈ routes, r.depth ≤ 32) (hd : Distinct routes)
    {t : T} (ht : ∀ d p, hop t d p = installed routes d p) (a : BitVec 32) :
    lpm.lookup t a = (longestPrefix routes a).map Ipv4L3fwdLpmRoute.ifOut := by
  have hnone {d : Nat} (hno : ∀ q ∈ routes, q.depth = d → ¬q.Covers a) : hop t d (a &&& netMask d) = none := by
    rw [ht]
    refine installed_eq_none ?_
    rintro q hq ⟨rfl, hmasked⟩
    exact hno q hq rfl ((Ipv4L3fwdLpmRoute.and_netMask_eq_iff (hdepth q hq) a).mp hmasked)
  cases hbest : longestPrefix routes a with
  | none =>
    have hmiss := bestMatch_eq_none.mp hbest
    exact h.miss t a fun d _ => hnone fun q hq _ => of_decide_eq_false (hmiss q hq)
  | some r =>
    obtain ⟨hr, hcovers, hlongest⟩ := bestMatch_eq_some hbest
    have hmasked := (Ipv4L3fwdLpmRoute.and_netMask_eq_iff (hdepth r hr) a).mpr (of_decide_eq_true hcovers)
    refine h.hit t a r.depth r.ifOut (hdepth r hr) ?_ fun d hlt _ => hnone fun q hq heq hq' => ?_
    · rw [hmasked, ht, installed_of_mem hd hr]
    · have := hlongest q hq (decide_eq_true hq')
      omega

/-- **The port of a packet** is that of the longest prefix among the routes, as a lookup in the table
that is set up with them would have it, or else the one it came in by; and any table in which no
route stands behind a shorter one that covers it is scanned for the longest prefix. -/
theorem dport_eq_longestPrefix (h : lpm.Lawful hop) {t : T}
    (hsetup : setupLpm lpm socketid ipv4Routes ipv4Routes.length () = .ret t ()) :
    (∀ (dstAddr : BitVec 32) (portid : BitVec 8),
      lpmGetIpv4Dport dstAddr portid.toNat =
          ((longestPrefix ipv4Routes (rteBeToCpu32 dstAddr)).map Ipv4L3fwdLpmRoute.ifOut).getD portid.toNat ∧
        lpmGetIpv4Dport dstAddr portid.toNat = (lpm.lookup t (rteBeToCpu32 dstAddr)).getD portid.toNat) ∧
      ∀ routes, Scannable routes → ∀ a, scan routes a = longestPrefix routes a := by
  refine ⟨fun dstAddr portid => ?_, fun routes hr a => scan_eq_longestPrefix hr a⟩
  have hscan := lpmGetIpv4Dport_eq_scan dstAddr portid.toNat
  rw [scan_eq_longestPrefix scannable_ipv4Routes, Nat.mod_eq_of_lt portid.isLt] at hscan
  refine ⟨hscan, ?_⟩
  rw [hscan, lookup_eq_longestPrefix h scannable_ipv4Routes.depth_le (by decide) (setupLpm_hop h hsetup)]

end Setup

/-- From `d` bits down. -/
def lpmSearch (t : Nat → BitVec 32 → Option Nat) (a : BitVec 32) : Nat → Option Nat
  | 0 => t 0 (a &&& netMask 0)
  | d + 1 => (t (d + 1) (a &&& netMask (d + 1))).or (lpmSearch t a d)

/-- A lookup table by depth and prefix. -/
def lpmTable : RteLpm (Nat → BitVec 32 → Option Nat) where
  create _ := some fun _ _ => none
  add t ip depth nextHop :=
    if 1 ≤ depth ∧ depth ≤ 32 then
      (0, fun d p => if d = depth ∧ p = ip &&& netMask depth then some nextHop else t d p)
    else (-22, t)
  lookup t a := lpmSearch t a 32

theorem lpmSearch_hit {t : Nat → BitVec 32 → Option Nat} {a : BitVec 32} {d n h : Nat} (hd : d ≤ n)
    (hhit : t d (a &&& netMask d) = some h) (hlonger : ∀ d', d < d' → d' ≤ n → t d' (a &&& netMask d') = none) :
    lpmSearch t a n = some h := by
  induction n with
  | zero =>
    obtain rfl := Nat.le_zero.mp hd
    exact hhit
  | succ n ih =>
    rw [lpmSearch]
    obtain rfl | hlt := Nat.eq_or_lt_of_le hd
    · rw [hhit, Option.some_or]
    · rw [hlonger _ hlt le_rfl, Option.none_or]
      exact ih (Nat.le_of_lt_succ hlt) fun d' hd' hle => hlonger d' hd' (Nat.le_succ_of_le hle)

theorem lpmSearch_miss {t : Nat → BitVec 32 → Option Nat} {a : BitVec 32} {n : Nat}
    (hmiss : ∀ d ≤ n, t d (a &&& netMask d) = none) : lpmSearch t a n = none := by
  induction n with
  | zero => exact hmiss 0 le_rfl
  | succ n ih =>
    rw [lpmSearch, hmiss _ le_rfl, Option.none_or]
    exact ih fun d hd => hmiss d (Nat.le_succ_of_le hd)

theorem lpmTable_lawful : lpmTable.Lawful fun t => t where
  create s t h d p := by
    cases h
    rfl
  add t ip depth nextHop hret d p := by
    simp only [lpmTable] at hret ⊢
    split at hret
    · rename_i hdepth
      rw [if_pos hdepth]
    · exact absurd (show (0 : Int) ≤ -22 from hret) (by decide)
  hit t a d h hd hhit hlonger := lpmSearch_hit hd hhit hlonger
  miss t a hmiss := lpmSearch_miss hmiss

/-- The table on socket 0, and a host behind port 1. -/
theorem dport_of_lpmTable :
    ∃ t, setupLpm lpmTable 0 ipv4Routes ipv4Routes.length () = .ret t () ∧
      lpmGetIpv4Dport (rteBeToCpu32 (ipv4 192 168 20 7)) (0 : BitVec 8).toNat =
        (lpmTable.lookup t (rteBeToCpu32 (rteBeToCpu32 (ipv4 192 168 20 7)))).getD (0 : BitVec 8).toNat := by
  have hrun : ∃ t, setupLpm lpmTable 0 ipv4Routes ipv4Routes.length () = .ret t () := ⟨_, rfl⟩
  obtain ⟨t, ht⟩ := hrun
  exact ⟨t, ht, ((dport_eq_longestPrefix lpmTable_lawful ht).1 (rteBeToCpu32 (ipv4 192 168 20 7)) 0).2⟩

end L3fwd
end Susanow
