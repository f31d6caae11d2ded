import Susanow.Nfvi.Fitting
import Susanow.Nfvi.Holding
import Susanow.Nfvi.Tables

/-! What a deploy hands to its workers.

A worker polls a port by the id its vcore holds for it, and the id picks one of the
accessors that the deploy has made: as many as the port has counted. The ids are good
if no port was put under ids it has not counted (`Covers`), and an accessor has queues to
walk if its port has any. -/
namespace Susanow

/-- The accessors of one direction. -/
def PortTables.accessors (tx : Bool) : PortTables → List Accessor
  | .device r t => bif tx then t.accessors else r.accessors
  | .rings r t => bif tx then t else r

namespace Nfvi
open Accessor (AllTurned)
open Proc (Meets)

def accessors (n : Nfvi) (tx : Bool) (p : Nat) : List Accessor := (n.portTables p).accessors tx

/-- How many queues the port has in one direction. -/
def queues (n : Nfvi) (tx : Bool) (p : Nat) : Nat :=
  match (n.port p).dev with
  | .dpdk _ _ ma => bif tx then ma.nTxq else ma.nRxq
  | .virt t r => ((bif tx then t else r).map fun e => (n.ring e).getNumQue).getD 0

/-- Every worker of `v` has an accessor with queues at every port it polls or sends to, and no two
have the same. -/
structure Equipped (n : Nfvi) (v : Nat) : Prop where
  served : ∀ tx, ∀ pid < (n.vnf v).nPorts, ∀ w ∈ n.workers v tx pid, ∃ p a acc,
    (n.vnf v).ports[pid]? = some (some p) ∧ n.aid tx v pid w = some a ∧ (n.accessors tx p)[a]? = some acc ∧
      acc.ques ≠ [] ∧ ∀ q ∈ acc.ques, q < n.queues tx p
  own : ∀ (tx : Bool) (pid qid p : Nat) (w u : Nat × Nat), (n.vnf v).ports[pid]? = some (some p) →
    (n.vnf v).ports[qid]? = some (some p) → w ∈ n.workers v tx pid → u ∈ n.workers v tx qid →
    n.aid tx v pid w = n.aid tx v qid u → w = u

/-! ### The accessors of a port -/

/-- Each accessor of the port has its slice of the queues. -/
structure Sliced (n : Nfvi) (tx : Bool) (p : Nat) : Prop where
  divides : (n.port p).nAcc tx = 0 ∨ (n.port p).nAcc tx ∣ n.queues tx p
  turned : AllTurned (n.queues tx p / (n.port p).nAcc tx) ((n.port p).nAcc tx) (fun _ => 0) (n.accessors tx p)

theorem Sliced.serves {n : Nfvi} {tx : Bool} {p a : Nat} (h : Sliced n tx p) (hque : n.queues tx p ≠ 0)
    (ha : a < (n.port p).nAcc tx) :
    ∃ acc, (n.accessors tx p)[a]? = some acc ∧ acc.ques ≠ [] ∧ ∀ q ∈ acc.ques, q < n.queues tx p := by
  have hdvd := h.divides.resolve_left (Nat.ne_zero_of_lt ha)
  have hpos : 0 < n.queues tx p / (n.port p).nAcc tx :=
    Nat.div_pos (Nat.le_of_dvd (Nat.pos_of_ne_zero hque) hdvd) (Nat.zero_lt_of_lt ha)
  obtain ⟨acc, hacc, rfl⟩ := h.turned.2 a ha
  refine ⟨_, hacc, fun hnil => ?_, fun q hq => ?_⟩
  · have hlen := congrArg List.length hnil
    rw [RoundRobin.length_slice] at hlen
    exact absurd hlen hpos.ne'
  · have hlt := RoundRobin.mem_slice_lt ha hq
    rwa [Nat.mul_div_cancel' hdvd] at hlt

/-- Counters, queues and pointers are what they were, and so are the accessors of every port but `p`. -/
structure Aside (p : Nat) (n n' : Nfvi) : Prop where
  wiring : n'.wiring = n.wiring
  acc : ∀ tx q, (n'.port q).nAcc tx = (n.port q).nAcc tx
  queues : ∀ tx q, n'.queues tx q = n.queues tx q
  tables : n.wiring.Linked → ∀ q ≠ p, n'.portTables q = n.portTables q

section Port
variable {n n' n'' : Nfvi} {p : Nat}

theorem Aside.trans (h : Aside p n n') (h' : Aside p n' n'') : Aside p n n'' where
  wiring := h'.wiring.trans h.wiring
  acc tx q := (h'.acc tx q).trans (h.acc tx q)
  queues tx q := (h'.queues tx q).trans (h.queues tx q)
  tables hlinked q hq := (h'.tables (h.wiring ▸ hlinked) q hq).trans (h.tables hlinked q hq)

theorem queues_congr {tx : Bool} {q : Nat} (hdev : (n'.port q).dev = (n.port q).dev)
    (hring : ∀ e, (n'.ring e).rings = (n.ring e).rings) : n'.queues tx q = n.queues tx q := by
  unfold queues
  rw [hdev]
  split
  · rfl
  · simp only [MaRing.getNumQue, hring]

theorem rings_setRing {e : RingRef} {x : MaRing Mbuf} (hx : x.rings = (n.ring e).rings) (e' : RingRef) :
    ((n.setRing e x).ring e').rings = (n.ring e').rings := by
  rw [ring_setRing]
  split
  · next h => rw [h, hx]
  · rfl

theorem aside_setDev {portId socketId : Nat} {ma ma' : MaPort} (hdev : (n.port p).dev = .dpdk portId socketId ma)
    (hrx : ma'.nRxq = ma.nRxq) (htx : ma'.nTxq = ma.nTxq) :
    Aside p n (n.editPort p (VnfPort.setDev (.dpdk portId socketId ma'))) := by
  refine ⟨?_, fun tx q => ?_, fun tx q => ?_, fun _ q hq => portTables_setDev _ hq⟩
  · rw [wiring_setDev, Dev.link, ← show n.wiring.link p = none by simp [wiring, hdev, Dev.link],
      Function.update_eq_self]
  · exact nAcc_editPort (f := VnfPort.setDev _) (fun _ _ => rfl) n p q tx
  · by_cases hq : q = p
    · subst hq
      simp only [queues, hdev, Nfvi.editPort, Function.update_self, VnfPort.setDev, hrx, htx]
    · exact queues_congr (congrArg VnfPort.dev (Function.update_of_ne hq _ _)) fun _ => rfl

theorem aside_setDeq {tx : Option RingRef} {r : RingRef} (hdev : (n.port p).dev = .virt tx (some r))
    (accs : List Accessor) : Aside p n (n.setRing r {n.ring r with deqAccessors := accs}) := by
  have hport : (n.setRing r {n.ring r with deqAccessors := accs}).port = n.port := by cases r <;> rfl
  refine ⟨wiring_setRing n r _, fun _ _ => by rw [hport], fun _ q => ?_,
    fun hlinked q hq => portTables_setDeq hlinked hdev accs hq⟩
  refine queues_congr (by rw [hport]) (rings_setRing ?_)
  rfl

theorem aside_setEnq {rx : Option RingRef} {r : RingRef} (hdev : (n.port p).dev = .virt (some r) rx)
    (accs : List Accessor) : Aside p n (n.setRing r {n.ring r with enqAccessors := accs}) := by
  have hport : (n.setRing r {n.ring r with enqAccessors := accs}).port = n.port := by cases r <;> rfl
  refine ⟨wiring_setRing n r _, fun _ _ => by rw [hport], fun _ q => ?_,
    fun hlinked q hq => portTables_setEnq hlinked hdev accs hq⟩
  refine queues_congr (by rw [hport]) (rings_setRing ?_)
  rfl

theorem Assigns.aside (h : Assigns p n n') : Aside p n n' := by
  cases h with
  | device hdev hshares => exact aside_setDev hdev hshares.nRxq hshares.nTxq
  | @rings tx rx enq deq n₁ hdev _ hn₁ _ =>
    have hdev₁ : (n₁.port p).dev = .virt (some tx) (some rx) := by
      rw [hn₁, ← hdev]
      cases rx <;> rfl
    exact (hn₁ ▸ aside_setDeq hdev deq).trans (aside_setEnq hdev₁ enq)

theorem accessors_device {portId socketId : Nat} {ma : MaPort} (hdev : (n.port p).dev = .dpdk portId socketId ma)
    (tx : Bool) : n.accessors tx p = bif tx then ma.tx.accessors else ma.rx.accessors := by
  simp only [accessors, portTables, hdev, PortTables.accessors]

theorem accessors_rings {t r : RingRef} (hdev : (n.port p).dev = .virt (some t) (some r)) (tx : Bool) :
    n.accessors tx p = bif tx then (n.ring t).enqAccessors else (n.ring r).deqAccessors := by
  simp only [accessors, portTables, hdev, PortTables.accessors, ringSide, Option.map_some, Option.getD_some]

theorem queues_device {portId socketId : Nat} {ma : MaPort} (hdev : (n.port p).dev = .dpdk portId socketId ma)
    (tx : Bool) : n.queues tx p = bif tx then ma.nTxq else ma.nRxq := by
  simp only [queues, hdev]

theorem queues_rings {t r : RingRef} (hdev : (n.port p).dev = .virt (some t) (some r)) (tx : Bool) :
    n.queues tx p = bif tx then (n.ring t).getNumQue else (n.ring r).getNumQue := by
  cases tx <;> simp only [queues, hdev, cond_true, cond_false, Option.map_some, Option.getD_some]

theorem AccFits.divides (h : n.AccFits p) (tx : Bool) :
    (n.port p).nAcc tx = 0 ∨ (n.port p).nAcc tx ∣ n.queues tx p := by
  unfold AccFits at h
  split at h
  · next hdev =>
    rw [queues_device hdev]
    cases tx
    · exact h.1
    · exact h.2
  · next hdev =>
    obtain ⟨⟨r, rfl, -, -, hrx⟩, t, rfl, -, -, htx⟩ := h
    rw [queues_rings hdev]
    cases tx
    · exact .inr hrx
    · exact .inr htx

theorem Assigns.sliced (h : Assigns p n n') (hfits : n.AccFits p) (tx : Bool) : Sliced n' tx p := by
  have haside := h.aside
  refine ⟨?_, ?_⟩
  · rw [haside.acc, haside.queues]
    exact hfits.divides tx
  · rw [haside.acc, haside.queues]
    cases h with
    | @device portId socketId ma ma' hdev hshares =>
      have hdev' : ((n.editPort p (VnfPort.setDev (.dpdk portId socketId ma'))).port p).dev =
          .dpdk portId socketId ma' := by
        simp [Nfvi.editPort, VnfPort.setDev]
      rw [queues_device hdev, accessors_device hdev']
      cases tx
      · exact hshares.rx
      · exact hshares.tx
    | @rings t r enq deq n₁ hdev hdeq hn₁ henq =>
      have hport : (n₁.setRing t {n₁.ring t with enqAccessors := enq}).port = n.port := by
        rw [hn₁]
        cases t <;> cases r <;> rfl
      have hring (e : RingRef) : (n₁.ring e).rings = (n.ring e).rings := by
        rw [hn₁]
        apply rings_setRing
        rfl
      have hd : ((n₁.setRing t {n₁.ring t with enqAccessors := enq}).ring r).deqAccessors = deq := by
        have hd₁ : (n₁.ring r).deqAccessors = deq := by
          rw [hn₁, ring_setRing, if_pos rfl]
        rw [ring_setRing]
        split
        · next heq => rwa [← heq]
        · exact hd₁
      have he : ((n₁.setRing t {n₁.ring t with enqAccessors := enq}).ring t).enqAccessors = enq := by
        rw [ring_setRing, if_pos rfl]
      rw [queues_rings hdev, accessors_rings (by rw [hport, hdev]), hd, he]
      cases tx
      · exact hdeq
      · have henq' : AllTurned ((n.ring t).getNumQue / (n.port p).nTxacc) (n.port p).nTxacc (fun _ => 0) enq := by
          rw [MaRing.getNumQue, ← hring]
          exact henq
        exact henq'

theorem Sliced.aside {q : Nat} {tx : Bool} (h : Sliced n tx q) (haside : Aside p n n') (hlinked : n.wiring.Linked)
    (hq : q ≠ p) : Sliced n' tx q := by
  have haccs : n'.accessors tx q = n.accessors tx q :=
    congrArg (PortTables.accessors tx) (haside.tables hlinked q hq)
  exact ⟨by rw [haside.acc, haside.queues]; exact h.divides,
    by rw [haside.acc, haside.queues, haccs]; exact h.turned⟩

end Port

/-! ### A deploy -/

/-- The ports in the first `k` slots have dealt out their queues since `n`. -/
structure Dealing (n : Nfvi) (v k : Nat) (n' : Nfvi) : Prop where
  same : SameFit n n'
  wiring : n'.wiring = n.wiring
  acc : ∀ tx q, (n'.port q).nAcc tx = (n.port q).nAcc tx
  queues : ∀ tx q, n'.queues tx q = n.queues tx q
  done : ∀ pid < k, ∀ p, (n.vnf v).ports[pid]? = some (some p) → ∀ tx, Sliced n' tx p

section Deploy
variable {n n' : Nfvi} {v : Nat}

theorem Dealing.round {k p : Nat} {t : Nfvi} (h : Dealing n v k n') (hlinked : n.wiring.Linked)
    (hk : (n.vnf v).ports[k]? = some (some p)) (hfits : n'.AccFits p) (ha : Assigns p n' t) :
    Dealing n v (k + 1) t := by
  have haside := ha.aside
  refine ⟨h.same.trans ha.sameFit, haside.wiring.trans h.wiring, fun tx q => (haside.acc tx q).trans (h.acc tx q),
    fun tx q => (haside.queues tx q).trans (h.queues tx q), fun pid hpid q hq tx => ?_⟩
  by_cases hqp : q = p
  · subst hqp
    exact ha.sliced hfits tx
  · -- a slot before this one, since it has another port
    have hne : pid ≠ k := by
      rintro rfl
      rw [hk] at hq
      cases hq
      exact hqp rfl
    exact (h.done pid (by omega) q hq tx).aside haside (h.wiring ▸ hlinked) hqp

theorem configreAcc_meets (hv : v ∈ n.vnfs) (hlinked : n.wiring.Linked) :
    Meets (configreAcc v) n (fun _ n' => Dealing n v (n.vnf v).nPorts n') fun _ => True := by
  refine Proc.meets_bind_ret (vnfAt_of_mem hv) ?_
  apply Proc.meets_forRange (fun k n' => Dealing n v k n')
    ⟨.refl n, rfl, fun _ _ => rfl, fun _ _ => rfl, fun pid hpid => absurd hpid (Nat.not_lt_zero pid)⟩
  intro k hk n' h
  refine Proc.meets_bind_of_ret (fun _ _ _ => trivial) fun p n₁ hp => ?_
  obtain ⟨rfl, hslot⟩ := slotAt_ret hp
  rw [h.same.vnf] at hslot
  by_cases hlive : p ∈ n₁.ports
  · have hconf := (configAcc_returnsIff hlive).meets (E := fun _ => True) fun _ => trivial
    exact hconf.weaken fun _ t ⟨hfits, ha⟩ => h.round hlinked hslot hfits ha
  · exact Proc.meets_bind_crash (portAt_of_not_mem hlive)

/-- Ids below the counters, and queues at every port, are all that it takes. -/
theorem Dealing.equipped (h : Dealing n v (n.vnf v).nPorts n') (hdistinct : n.Distinct v) (hholding : n.Holding v)
    (hfull : none ∉ (n.vnf v).ports) (hque : ∀ tx p, some p ∈ (n.vnf v).ports → n.queues tx p ≠ 0) :
    n'.Equipped v := by
  have hcore (k : Nat) : (n'.block? v k).map core = (n.block? v k).map core := by
    rw [block?, block?, h.same.vnf]
  have hports : (n'.vnf v).ports = (n.vnf v).ports := by
    rw [h.same.vnf]
  refine ⟨fun tx pid hpid w hw => ?_, fun tx pid qid p w u hp hq hw hu heq => ?_⟩
  · rw [Vnf.nPorts, hports] at hpid
    rw [workers_same hcore] at hw
    cases hslot : (n.vnf v).ports[pid] with
    | none => exact absurd (hslot ▸ List.getElem_mem hpid) hfull
    | some p =>
      have hp : (n.vnf v).ports[pid]? = some (some p) := by
        rw [List.getElem?_eq_getElem hpid, hslot]
      obtain ⟨c, htickets, hc⟩ := hholding tx pid hpid
      obtain ⟨a, ha, haid⟩ := htickets.range hw
      have hlt : a < (n'.port p).nAcc tx := by
        rw [h.acc]
        exact ha.2.trans_le (hc p hp)
      have hque' : n'.queues tx p ≠ 0 := by
        rw [h.queues]
        exact hque tx p (List.mem_of_getElem? hp)
      obtain ⟨acc, hacc, hserves⟩ := (h.done pid hpid p hp tx).serves hque' hlt
      exact ⟨p, a, acc, by rw [hports, hp], by rw [aid_same hcore]; exact haid.symm, hacc, hserves⟩
  · rw [hports] at hp hq
    rw [workers_same hcore] at hw hu
    rw [aid_same hcore, aid_same hcore] at heq
    obtain rfl := hdistinct pid qid p hp hq
    obtain ⟨c, htickets, -⟩ := hholding tx pid (List.getElem?_eq_some_iff.mp hp).1
    exact htickets.inj hw hu heq

/-- The ports in the slots of `v` have queues, if there is a deployable port in every slot. -/
def Queued (n : Nfvi) (v : Nat) : Prop :=
  (∀ slot ∈ (n.vnf v).ports, n.Plugged slot) → ∀ tx, ∀ slot ∈ (n.vnf v).ports, ∀ p ∈ slot, n.queues tx p ≠ 0

instance (n : Nfvi) (v : Nat) : Decidable (n.Queued v) :=
  inferInstanceAs (Decidable ((∀ slot ∈ _, _) → ∀ _, ∀ slot ∈ _, ∀ p ∈ slot, _))

theorem deploy_equips (hv : v ∈ n.vnfs) (hatt : n.wiring.Attached) (hlinked : n.wiring.Linked)
    (hpaired : n.wiring.Paired) (hholding : n.Holding v) (hque : n.Queued v) :
    Meets (deploy v) n (fun nx n' => nx = .launch v → n'.Equipped v) fun _ => True := by
  have hdistinct : n.Distinct v := hatt.slot_inj v hv
  have hlive (p : Nat) (hp : some p ∈ (n.vnf v).ports) : p ∈ n.ports := by
    obtain ⟨pid, hpid⟩ := List.mem_iff_getElem?.mp hp
    exact hatt.slot_live v hv pid p hpid
  refine Proc.meets_bind (Q := fun ok n' => ok = true → n'.Equipped v) ?_ fun ok n' h => ?_
  · refine Proc.meets_bind_ret (vnfAt_of_mem hv) (Proc.meets_bind_ret (portsDeployable_run hpaired hlive) ?_)
    by_cases hfull : ∀ slot ∈ (n.vnf v).ports, n.Plugged slot
    · rw [decide_eq_true hfull, if_pos rfl]
      have hnone : none ∉ (n.vnf v).ports := fun hnone => by
        obtain ⟨p, hp, -⟩ := hfull none hnone
        cases hp
      refine Proc.meets_bind (configreAcc_meets hv hlinked) fun _ n' h => Proc.meets_pure fun _ => ?_
      exact h.equipped hdistinct hholding hnone fun tx p hp => hque hfull tx (some p) hp p rfl
    · rw [decide_eq_false hfull]
      exact Proc.meets_pure nofun
  · cases ok
    · exact Proc.meets_pure nofun
    · exact Proc.meets_pure fun _ => h rfl

/-- Block `w.1` has a vcore `w.2`; its worker sends to every port. -/
def Sends (n : Nfvi) (v : Nat) (w : Nat × Nat) : Prop := ∃ b ∈ n.block? v w.1, w.2 < b.vcores.length

instance (n : Nfvi) (v : Nat) (w : Nat × Nat) : Decidable (n.Sends v w) :=
  inferInstanceAs (Decidable (∃ b ∈ n.block? v w.1, w.2 < b.vcores.length))

theorem mem_workers (n : Nfvi) {pid : Nat} {w : Nat × Nat} (hw : n.Sends v w) : w ∈ n.workers v true pid := by
  obtain ⟨b, hb, hlt⟩ := hw
  exact ⟨b, hb, .inl rfl, hlt⟩

/-- The queues that a worker sends to at slot `pid`. -/
def outlet (n : Nfvi) (v pid : Nat) (w : Nat × Nat) : Option (List Nat) :=
  (n.vnf v).ports[pid]?.join.bind fun p => (n.aid true v pid w).bind fun a =>
    (n.accessors true p)[a]?.map Accessor.ques

theorem Equipped.outlet (h : n.Equipped v) {pid : Nat} {w : Nat × Nat} (hpid : pid < (n.vnf v).nPorts)
    (hw : n.Sends v w) : ∃ ques ∈ n.outlet v pid w, ques ≠ [] := by
  obtain ⟨p, a, acc, hp, ha, hacc, hne, -⟩ := h.served true pid hpid w (n.mem_workers hw)
  exact ⟨acc.ques, by simp [Nfvi.outlet, hp, ha, hacc], hne⟩

theorem Equipped.editBlock (h : n.Equipped v) (w bid : Nat) {f : Block → Block} (hf : ∀ b, core (f b) = core b) :
    (n.editBlock w bid f).Equipped v := by
  have hcore (k : Nat) : ((n.editBlock w bid f).block? v k).map core = (n.block? v k).map core :=
    core_editBlock hf n w v k
  have hports := ports_of_wiring (wiring_editBlock n w bid f) v
  refine ⟨fun tx pid hpid u hu => ?_, fun tx pid qid p x u hp hq hx hu heq => ?_⟩
  · rw [Vnf.nPorts, hports] at hpid
    rw [workers_same hcore] at hu
    obtain ⟨p, a, acc, hp, ha, hacc⟩ := h.served tx pid hpid u hu
    exact ⟨p, a, acc, by rw [hports, hp], by rw [aid_same hcore, ha], hacc⟩
  · rw [hports] at hp hq
    rw [workers_same hcore] at hx hu
    rw [aid_same hcore, aid_same hcore] at heq
    exact h.own tx pid qid p x u hp hq hx hu heq

end Deploy

end Nfvi

namespace Sys

/-- A port is plugged into `v` only if it has counted the ids held for its slot, and `v` is deployed
only on ports with queues; nobody but the requests calls. -/
def accessRule (v : Nat) (s : Sys) : Label → Prop
  | .request r => (∀ x ∈ s.nfvi.plugs v r, s.nfvi.Covers v x.1 x.2) ∧
      (s.nfvi.Open (s.nfvi.deployGate r) v → s.nfvi.Queued v)
  | .call _ => False
  | .ctl => True
  | .wrk _ => True

instance (v : Nat) (s : Sys) : (l : Label) → Decidable (accessRule v s l)
  | .request r => inferInstanceAs (Decidable ((∀ x ∈ s.nfvi.plugs v r, _) ∧ (s.nfvi.Open _ v → s.nfvi.Queued v)))
  | .call _ => inferInstanceAs (Decidable False)
  | .ctl => inferInstanceAs (Decidable True)
  | .wrk _ => inferInstanceAs (Decidable True)

/-- The accessors of `v` are made; its blocks are being deployed, or all have been. -/
def Handed (s : Sys) (v : Nat) : Prop :=
  (∃ bid i, s.ctrl = .launching v bid i) ∨ s.ctrl = .idle (some (.deployed v 0))

section Step
variable {s t : Sys} {v : Nat}

theorem handed_ctl (hs : Ctl s t) (h : t.Handed v) : s.Handed v := by
  rcases h with ⟨bid, i, h⟩ | h
  · cases hs with
    | nextBlock hc | launch hc =>
      cases h
      exact .inl ⟨_, _, hc⟩
    | _ => cases h
  · cases hs with
    | deployed hc =>
      cases h
      exact .inl ⟨_, _, hc⟩
    | _ => cases h

theorem ctrl_wrk {l : Nat} (hs : Wrk s l t) : t.ctrl = s.ctrl := by
  cases hs <;> rfl

/-- Only a deploy that was let through goes on with the blocks. -/
theorem handed_request {r : Request} (hs : s.step (.request r) = some t) (h : t.Handed v) :
    s.nfvi.Open (s.nfvi.deployGate r) v ∧ Nfvi.deploy v s.nfvi = .ret (.launch v) t.nfvi := by
  obtain ⟨-, ⟨nx, n, hp, rfl⟩ | ⟨w, n, hp, rfl⟩⟩ := serve_some hs
  · rcases Nfvi.handle_next hp with ⟨answer, rfl⟩ | ⟨w, rfl | rfl, hopen⟩ | ⟨w, rfl, -⟩
    · rcases h with ⟨bid, i, h⟩ | h <;> cases h
    · rcases h with ⟨bid, i, h⟩ | h
      · cases h
        exact ⟨hopen, Nfvi.handle_deploy s.native hopen ▸ hp⟩
      · cases h
    · rcases h with ⟨bid, i, h⟩ | h <;> cases h
    · rcases h with ⟨bid, i, h⟩ | h <;> cases h
  · rcases h with ⟨bid, i, h⟩ | h <;> cases h

/-- VNF `v` holds its ids well, and has an accessor for each once its deploy is at the blocks. -/
structure Provided (s : Sys) (v : Nat) : Prop where
  linked : s.nfvi.wiring.Linked
  paired : s.nfvi.wiring.Paired
  tended : s.nfvi.Tended v
  equipped : s.Handed v → s.nfvi.Equipped v

theorem provided_init (nSocket nLcore : Nat) (catalog : List (String × VnfClass)) (v : Nat) :
    (init nSocket nLcore catalog).Provided v where
  linked := Wiring.linked_init nSocket catalog
  paired p tx rx hl := by cases hl; rfl
  tended := ⟨Wiring.attached_init nSocket catalog, nofun, nofun, nofun⟩
  equipped h := by rcases h with ⟨bid, i, h⟩ | h <;> cases h

theorem Provided.step {l : Label} (h : s.Provided v) (hrule : accessRule v s l) (hs : s.step l = some t) :
    t.Provided v := by
  have hmoved := step_moved .trivial (fun r _ => Nfvi.admits_trivial _ r) hs
  have hedit (w bid : Nat) {f : Block → Block} (hf : ∀ b, Nfvi.core (f b) = Nfvi.core b)
      (hhanded : t.Handed v → s.Handed v) : (s.nfvi.editBlock w bid f).Tended v ∧
        (t.Handed v → (s.nfvi.editBlock w bid f).Equipped v) :=
    ⟨h.tended.editBlock w bid hf, fun hat => (h.equipped (hhanded hat)).editBlock w bid hf⟩
  suffices t.nfvi.Tended v ∧ (t.Handed v → t.nfvi.Equipped v) from
    ⟨h.linked.moved hmoved, h.paired.moved hmoved, this.1, this.2⟩
  cases l with
  | request r =>
    refine ⟨?_, fun hat => ?_⟩
    · have hhandle := h.tended.handle s.native hrule.1
      obtain ⟨-, ⟨nx, n, hp, rfl⟩ | ⟨w, n, hp, rfl⟩⟩ := serve_some hs
      · exact hhandle.1 nx n hp
      · exact hhandle.2 w n hp
    · obtain ⟨hopen, hdeploy⟩ := handed_request hs hat
      have hv : v ∈ s.nfvi.vnfs := Nfvi.mem_of_deployGate hopen.1
      exact (Nfvi.deploy_equips hv h.tended.attached h.linked h.paired (h.tended.holding hv) (hrule.2 hopen)).1 _ _
        hdeploy rfl
  | call c => exact hrule.elim
  | ctl =>
    have hctl := ctl_some hs
    exact hctl.nfvi (P := fun n => n.Tended v ∧ (t.Handed v → n.Equipped v))
      ⟨h.tended, fun hat => h.equipped (handed_ctl hctl hat)⟩
      (fun w bid i l => hedit w bid (f := setTid i l) (fun _ => rfl) (handed_ctl hctl))
      fun w bid running => hedit w bid (f := setRunning running) (fun _ => rfl) (handed_ctl hctl)
  | wrk j =>
    have hwrk := wrk_some hs
    have hhanded : t.Handed v → s.Handed v := by
      unfold Handed
      rw [ctrl_wrk hwrk]
      exact id
    exact hwrk.nfvi (P := fun n => n.Tended v ∧ (t.Handed v → n.Equipped v))
      ⟨h.tended, fun hat => h.equipped (hhanded hat)⟩
      fun w bid running => hedit w bid (f := setRunning running) (fun _ => rfl) hhanded

end Step

/-- **What a deploy that succeeds hands to its workers**: to each an accessor with queues at every
port it polls or sends to, and no accessor to two of them. -/
theorem equipped_of_run {nSocket nLcore : Nat} {catalog : List (String × VnfClass)} {ls : List Label} {s : Sys}
    {v : Nat} (h : Runs step (accessRule v) (.init nSocket nLcore catalog) ls s)
    (hdone : s.ctrl = .idle (some (.deployed v 0))) : s.nfvi.Equipped v :=
  (h.invariant (I := fun s : Sys => s.Provided v) (provided_init nSocket nLcore catalog v)
    fun _ _ _ hI hrule hs => hI.step hrule hs).equipped (.inr hdone)

/-- `l2fwd` on two ports, deployed on one core. -/
def equippedRun : List Label := deployRun "l2fwd" [0x4] ++ [.ctl, .ctl, .ctl]

theorem equipped_of_equippedRun :
    ∃ s, exec step (.init 1 4 mainCatalog) equippedRun = some s ∧ s.ctrl = .idle (some (.deployed 0 0)) ∧
      s.nfvi.Equipped 0 := by
  obtain ⟨s, hs, hdone⟩ := Option.map_eq_some_iff.mp
    (show (exec step (.init 1 4 mainCatalog) equippedRun).map Sys.ctrl = some (.idle (some (.deployed 0 0))) by
      decide +kernel)
  exact ⟨s, hs, hdone, equipped_of_run (Runs.of_obeys (by decide +kernel) hs) hdone⟩

/-- `l2fwd` whose first port is replaced, after the mask, by one that has not been counted. -/
def swapRun : List Label :=
  bringUp "l2fwd" ++ [.request (.resetPut "v"), .request (.coremaskPut "v" 0 (some 0x4)),
    .request (.slotDelete "v" 0), .request (pciPort "c"), .request (.slotPut "v" 0 (some "c")),
    .request (.deployPut "v"), .ctl, .ctl, .ctl]

/-- `l2fwd` on two taps. -/
def tapRun : List Label :=
  [.request (.vnfPost "v" (some "l2fwd") fun _ => (0, 0)), .request (.portPost "a" (some "tap") (some "0") (.ok 0)),
    .request (.portPost "b" (some "tap") (some "1") (.ok 0)), .request (.slotPut "v" 0 (some "a")),
    .request (.slotPut "v" 1 (some "b")), .request (.resetPut "v"), .request (.coremaskPut "v" 0 (some 0x4)),
    .request (.deployPut "v"), .ctl, .ctl, .ctl]

/-- The first port of `l2fwd_numa` is replaced between the masks of its two blocks. -/
def numaRun : List Label :=
  bringUp "l2fwd_numa" ++ [.request (.resetPut "v"), .request (.coremaskPut "v" 0 (some 0x4)),
    .request (.slotDelete "v" 0), .request (pciPort "c"), .request (.slotPut "v" 0 (some "c")),
    .request (.coremaskPut "v" 1 (some 0x8)), .request (.deployPut "v"), .ctl, .ctl, .ctl, .ctl, .ctl]

/-- VNF 0 is deployed, and not equipped. -/
def Unequipped (ls : List Label) : Prop :=
  ∃ s, exec step (.init 1 4 mainCatalog) ls = some s ∧ s.ctrl = .idle (some (.deployed 0 0)) ∧ ¬s.nfvi.Equipped 0

theorem unequipped_of {ls : List Label} (P : Nfvi → Bool) (hP : ∀ n, P n = true → ¬n.Equipped 0)
    (h : (exec step (.init 1 4 mainCatalog) ls).map (fun s => (s.ctrl, P s.nfvi)) =
      some (.idle (some (.deployed 0 0)), true)) : Unequipped ls := by
  obtain ⟨s, hs, hf⟩ := Option.map_eq_some_iff.mp h
  simp only [Prod.mk.injEq] at hf
  exact ⟨s, hs, hf.1, hP _ hf.2⟩

/-- The id of the new port is one too high; a tap's accessor has no queue; and the workers of two
blocks send with one id. -/
theorem not_equipped : Unequipped swapRun ∧ Unequipped tapRun ∧ Unequipped numaRun := by
  have hserved (n : Nfvi) (h : decide (0 < (n.vnf 0).nPorts ∧ n.Sends 0 (0, 0) ∧
      ∀ ques ∈ n.outlet 0 0 (0, 0), ques = []) = true) : ¬n.Equipped 0 := fun hequipped => by
    obtain ⟨hpid, hw, hbare⟩ := of_decide_eq_true h
    obtain ⟨ques, hques, hne⟩ := hequipped.outlet hpid hw
    exact hne (hbare ques hques)
  refine ⟨unequipped_of _ hserved (by decide +kernel), unequipped_of _ hserved (by decide +kernel), ?_⟩
  refine unequipped_of (fun n => decide ((∃ p ∈ (n.vnf 0).ports[0]?, p.isSome) ∧ n.Sends 0 (0, 0) ∧ n.Sends 0 (1, 0) ∧
    n.aid true 0 0 (0, 0) = n.aid true 0 0 (1, 0))) (fun n h hequipped => ?_) (by decide +kernel)
  obtain ⟨⟨slot, hslot, hsome⟩, hw, hu, heq⟩ := of_decide_eq_true h
  obtain ⟨p, rfl⟩ := Option.isSome_iff_exists.mp hsome
  cases hequipped.own true 0 0 p (0, 0) (1, 0) hslot hslot (n.mem_workers hw) (n.mem_workers hu) heq

end Sys

end Susanow
