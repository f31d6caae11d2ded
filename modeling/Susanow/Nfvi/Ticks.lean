import Mathlib.Data.List.Nodup
import Susanow.Nfvi.Patching
import Susanow.Nfvi.Tables

/-! The timer's tick.

Once a second the timer's thread goes through the VNFs that run and has each of their
ports roll its counters over; a virt port rolls those of the ring it receives from. A
ring of a panel is reached through the one port at its receiving end, so whether it is
rolled is up to the VNF that port is attached to. -/
namespace Susanow

/-! ### Who receives from a ring -/

namespace Wiring
open Function (update)

/-- Ring pointers of live ports lead to panels there are, and the live ends of a panel have
theirs. A panel of one port has lost the pointers to its left end. -/
structure Panelled (w : Wiring) : Prop where
  ends_lt : ∀ a ∈ w.ppps, (w.ends a).1 < w.next ∧ (w.ends a).2 < w.next
  left : ∀ a ∈ w.ppps, (w.ends a).1 ∈ w.ports → (w.ends a).1 ≠ (w.ends a).2 →
    w.link (w.ends a).1 = some (some (.leftEnq a), some (.rightEnq a))
  right : ∀ a ∈ w.ppps, (w.ends a).2 ∈ w.ports →
    w.link (w.ends a).2 = some (some (.rightEnq a), some (.leftEnq a))
  rx_left : ∀ p ∈ w.ports, ∀ tx a, w.link p = some (tx, some (.leftEnq a)) →
    a ∈ w.ppps ∧ p = (w.ends a).2
  rx_right : ∀ p ∈ w.ports, ∀ tx a, w.link p = some (tx, some (.rightEnq a)) →
    a ∈ w.ppps ∧ p = (w.ends a).1 ∧ (w.ends a).1 ≠ (w.ends a).2

namespace Panelled
variable {w w' : Wiring} {g : Guard} (h : Panelled w)
include h

/-- The link of a live end. -/
theorem linked {a p : Nat} (ha : a ∈ w.ppps) (hend : w.Endpoint a p) (hp : p ∈ w.ports) :
    ∃ tx rx, w.link p = some (some tx, some rx) ∧ tx.ppp = a := by
  by_cases hr : p = (w.ends a).2
  · subst hr
    exact ⟨_, _, h.right a ha hp, rfl⟩
  · obtain rfl := hend.resolve_right hr
    exact ⟨_, _, h.left a ha hp hr, rfl⟩

theorem not_endpoint {a p : Nat} (ha : a ∈ w.ppps) (hp : p ∈ w.ports) (hlink : w.link p = some (none, none)) :
    ¬ w.Endpoint a p := by
  intro hend
  obtain ⟨tx, rx, hl, -⟩ := h.linked ha hend hp
  rw [hlink] at hl
  cases hl

theorem endpoint_inj {a b p : Nat} (ha : a ∈ w.ppps) (hb : b ∈ w.ppps) (hp : p ∈ w.ports)
    (hpa : w.Endpoint a p) (hpb : w.Endpoint b p) : a = b := by
  obtain ⟨tx, rx, hl, rfl⟩ := h.linked ha hpa hp
  obtain ⟨tx', rx', hl', rfl⟩ := h.linked hb hpb hp
  rw [hl] at hl'
  cases hl'
  rfl

theorem addPort {name : String} {link : Option (Option RingRef × Option RingRef)}
    (hlink : link = none ∨ link = some (none, none)) :
    Panelled {w with ports := w.ports ++ [w.next], portName := update w.portName w.next name,
                     owner := update w.owner w.next none, link := update w.link w.next link,
                     next := w.next + 1} := by
  have hold {p : Nat} (hp : p ∈ w.ports ++ [w.next]) (hne : p ≠ w.next) : p ∈ w.ports := by
    simpa [hne] using hp
  -- the new port points to nothing
  have hrx {p : Nat} {tx : Option RingRef} {r : RingRef} (hl : update w.link w.next link p = some (tx, some r)) :
      p ≠ w.next ∧ w.link p = some (tx, some r) := by
    by_cases hne : p = w.next
    · subst hne
      rw [Function.update_self] at hl
      rcases hlink with rfl | rfl <;> cases hl
    · rw [Function.update_of_ne hne] at hl
      exact ⟨hne, hl⟩
  refine ⟨fun a ha => ?_, fun a ha hp hne => ?_, fun a ha hp => ?_, fun p hp tx a hl => ?_, fun p hp tx a hl => ?_⟩
  · exact ⟨Nat.lt_succ_of_lt (h.ends_lt a ha).1, Nat.lt_succ_of_lt (h.ends_lt a ha).2⟩
  · have hlt := Nat.ne_of_lt (h.ends_lt a ha).1
    exact (Function.update_of_ne hlt _ _).trans (h.left a ha (hold hp hlt) hne)
  · have hlt := Nat.ne_of_lt (h.ends_lt a ha).2
    exact (Function.update_of_ne hlt _ _).trans (h.right a ha (hold hp hlt))
  · obtain ⟨hne, hl⟩ := hrx hl
    exact h.rx_left p (hold hp hne) tx a hl
  · obtain ⟨hne, hl⟩ := hrx hl
    exact h.rx_right p (hold hp hne) tx a hl

theorem addPpp {name : String} {l r : Nat} (hatt : Attached w) (hl : l ∈ w.ports) (hr : r ∈ w.ports)
    (hll : w.link l = some (none, none)) (hlr : w.link r = some (none, none)) :
    Panelled {w with ppps := w.ppps ++ [w.next], pppName := update w.pppName w.next name,
                     ends := update w.ends w.next (l, r), link := patchLink w.link w.next l r,
                     next := w.next + 1} := by
  have hcases {a : Nat} (ha : a ∈ w.ppps ++ [w.next]) : a ∈ w.ppps ∨ a = w.next := by
    simpa using ha
  have hold {a : Nat} (ha : a ∈ w.ppps) : update w.ends w.next (l, r) a = w.ends a :=
    Function.update_of_ne (Nat.ne_of_lt (hatt.ppp_lt a ha)) _ _
  have hnew : update w.ends w.next (l, r) w.next = (l, r) := Function.update_self _ _ _
  have hlinkr : patchLink w.link w.next l r r = some (some (.rightEnq w.next), some (.leftEnq w.next)) :=
    Function.update_self _ _ _
  have hlinkl (hne : l ≠ r) : patchLink w.link w.next l r l =
      some (some (.leftEnq w.next), some (.rightEnq w.next)) := by
    rw [patchLink, Function.update_of_ne hne, Function.update_self]
  have hother {p : Nat} (hpl : p ≠ l) (hpr : p ≠ r) : patchLink w.link w.next l r p = w.link p := by
    rw [patchLink, Function.update_of_ne hpr, Function.update_of_ne hpl]
  -- an end of an older panel is neither of the two ports
  have hends {a p : Nat} (ha : a ∈ w.ppps) (hend : w.Endpoint a p) (hp : p ∈ w.ports) :
      patchLink w.link w.next l r p = w.link p := by
    apply hother
    · rintro rfl
      exact h.not_endpoint ha hp hll hend
    · rintro rfl
      exact h.not_endpoint ha hp hlr hend
  refine ⟨fun a ha => ?_, fun a ha hp hne => ?_, fun a ha hp => ?_, fun p hp tx a hlink => ?_,
    fun p hp tx a hlink => ?_⟩
  · show (update w.ends w.next (l, r) a).1 < w.next + 1 ∧ (update w.ends w.next (l, r) a).2 < w.next + 1
    rcases hcases ha with ha | rfl
    · rw [hold ha]
      exact ⟨Nat.lt_succ_of_lt (h.ends_lt a ha).1, Nat.lt_succ_of_lt (h.ends_lt a ha).2⟩
    · rw [hnew]
      exact ⟨Nat.lt_succ_of_lt (hatt.port_lt l hl), Nat.lt_succ_of_lt (hatt.port_lt r hr)⟩
  · simp only at hp hne ⊢
    rcases hcases ha with ha | rfl
    · rw [hold ha] at hp hne ⊢
      rw [hends ha (.inl rfl) hp]
      exact h.left a ha hp hne
    · rw [hnew] at hne ⊢
      exact hlinkl hne
  · simp only at hp ⊢
    rcases hcases ha with ha | rfl
    · rw [hold ha] at hp ⊢
      rw [hends ha (.inr rfl) hp]
      exact h.right a ha hp
    · rw [hnew]
      exact hlinkr
  · simp only at hp hlink ⊢
    by_cases hpr : p = r
    · subst hpr
      rw [hlinkr] at hlink
      cases hlink
      exact ⟨List.mem_append_right _ List.mem_cons_self, by rw [hnew]⟩
    · by_cases hpl : p = l
      · subst hpl
        rw [hlinkl hpr] at hlink
        cases hlink
      · rw [hother hpl hpr] at hlink
        obtain ⟨ha, hpa⟩ := h.rx_left p hp tx a hlink
        exact ⟨List.mem_append_left _ ha, by rw [hold ha, hpa]⟩
  · simp only at hp hlink ⊢
    by_cases hpr : p = r
    · subst hpr
      rw [hlinkr] at hlink
      cases hlink
    · by_cases hpl : p = l
      · subst hpl
        rw [hlinkl hpr] at hlink
        cases hlink
        refine ⟨List.mem_append_right _ List.mem_cons_self, ?_⟩
        rw [hnew]
        exact ⟨rfl, hpr⟩
      · rw [hother hpl hpr] at hlink
        obtain ⟨ha, hpa⟩ := h.rx_right p hp tx a hlink
        refine ⟨List.mem_append_left _ ha, ?_⟩
        rw [hold ha]
        exact hpa

theorem delPpp {a : Nat} (hatt : Attached w) (ha : a ∈ w.ppps) :
    Panelled {w with ppps := w.ppps.erase a, link := unpatchLink w.link (w.ends a).1 (w.ends a).2} := by
  have hmem {b : Nat} : b ∈ w.ppps.erase a ↔ b ≠ a ∧ b ∈ w.ppps := hatt.ppp_names.of_map.mem_erase_iff
  have hother {p : Nat} (hp : ¬ w.Endpoint a p) : unpatchLink w.link (w.ends a).1 (w.ends a).2 p = w.link p := by
    rw [unpatchLink, Function.update_of_ne fun h => hp (.inr h), Function.update_of_ne fun h => hp (.inl h)]
  have hends {b p : Nat} (hb : b ∈ w.ppps.erase a) (hend : w.Endpoint b p) (hp : p ∈ w.ports) :
      unpatchLink w.link (w.ends a).1 (w.ends a).2 p = w.link p :=
    hother fun hpa => (hmem.mp hb).1 (h.endpoint_inj (hmem.mp hb).2 ha hp hend hpa)
  -- a port that still points to a ring is no end of the panel
  have hrx {p : Nat} {tx : Option RingRef} {r : RingRef}
      (hl : unpatchLink w.link (w.ends a).1 (w.ends a).2 p = some (tx, some r)) :
      ¬ w.Endpoint a p ∧ w.link p = some (tx, some r) := by
    have hold := unpatchLink_some hl (.inr (by simp))
    refine ⟨fun hend => ?_, hold⟩
    unfold unpatchLink at hl
    by_cases hr : p = (w.ends a).2
    · rw [hr, Function.update_self] at hl
      cases hl
    · rw [Function.update_of_ne hr, hend.resolve_right hr, Function.update_self] at hl
      cases hl
  refine ⟨fun b hb => h.ends_lt b (hmem.mp hb).2, fun b hb hp hne => ?_, fun b hb hp => ?_, fun p hp tx b hl => ?_,
    fun p hp tx b hl => ?_⟩
  · exact (hends hb (.inl rfl) hp).trans (h.left b (hmem.mp hb).2 hp hne)
  · exact (hends hb (.inr rfl) hp).trans (h.right b (hmem.mp hb).2 hp)
  · obtain ⟨hend, hl⟩ := hrx hl
    obtain ⟨hb, hpb⟩ := h.rx_left p hp tx b hl
    refine ⟨hmem.mpr ⟨?_, hb⟩, hpb⟩
    rintro rfl
    exact hend (.inr hpb)
  · obtain ⟨hend, hl⟩ := hrx hl
    obtain ⟨hb, hpb⟩ := h.rx_right p hp tx b hl
    refine ⟨hmem.mpr ⟨?_, hb⟩, hpb⟩
    rintro rfl
    exact hend (.inl hpb.1)

theorem moved (hatt : Attached w) (hm : Moved g w w') : Panelled w' := by
  rcases hm with rfl | hm
  · exact h
  · cases hm with
    | addVnf name nPorts hname =>
      exact {h with ends_lt := fun a ha =>
        ⟨Nat.lt_succ_of_lt (h.ends_lt a ha).1, Nat.lt_succ_of_lt (h.ends_lt a ha).2⟩}
    | delVnf v hv hnull => exact {h with}
    | attach v pid p hv hp hempty howner => exact {h with}
    | dettach v pid p hv hp hslot => exact {h with}
    | addPort name link hname hlink => exact h.addPort hlink
    | delPort p hp howner hg =>
      exact
        {h with
          left := fun a ha hp => h.left a ha (List.mem_of_mem_erase hp)
          right := fun a ha hp => h.right a ha (List.mem_of_mem_erase hp)
          rx_left := fun q hq => h.rx_left q (List.mem_of_mem_erase hq)
          rx_right := fun q hq => h.rx_right q (List.mem_of_mem_erase hq)}
    | addPpp name l r hname hl hr hll hlr hg => exact h.addPpp hatt hl hr hll hlr
    | delPpp a ha hl hr => exact h.delPpp hatt ha

end Panelled

end Wiring

/-! ### The tick -/

namespace Nfvi
open Proc (Stuck)

/-- A ring's counters are rolled over. The rings this was done to are returned, in order. -/
def rollOver (r : RingRef) : Proc Nfvi (List RingRef) := do
  onRing (some r) (Proc.modify MaRing.updateStats)
  pure [r]

/-- A port of a device rolls counters of its own, which are not kept here. -/
def statsUpdatePer1sec (p : Nat) : Proc Nfvi (List RingRef) := do
  let port ← portAt p
  match port.dev with
  | .dpdk _ _ _ => pure []
  | .virt _ none => pure []
  | .virt _ (some rx) => rollOver rx

/-- `ports.at(i)->stats_update_per1sec()` for each slot; none is looked at before. -/
def updateSlots : List (Option Nat) → Proc Nfvi (List RingRef)
  | [] => pure []
  | none :: _ => Proc.crash .nullPointer
  | some p :: rest => do
    let rolled ← statsUpdatePer1sec p
    let more ← updateSlots rest
    pure (rolled ++ more)

def updateStats (v : Nat) : Proc Nfvi (List RingRef) := do
  let x ← vnfAt v
  updateSlots x.ports

def updateVnfs : List Nat → Proc Nfvi (List RingRef)
  | [] => pure []
  | v :: rest => do
    let x ← vnfAt v
    let rolled ← (if x.isRunning then updateStats v else pure [])
    let more ← updateVnfs rest
    pure (rolled ++ more)

/-- `_timercallback`, less the counters of the devices and of the cpus. -/
def timercallback : Proc Nfvi (List RingRef) := do
  let n ← Proc.get
  updateVnfs n.vnfs

/-! ### What is rolled over -/

def rxOf (n : Nfvi) (p : Nat) : Option RingRef :=
  match (n.port p).dev with
  | .dpdk _ _ _ => none
  | .virt _ rx => rx

def rolledOver (n : Nfvi) (rolled : List RingRef) : Nfvi :=
  rolled.foldl (fun n r => setRing n r (ring n r).updateStats) n

/-- A ring is rolled over as often as it is listed. -/
theorem ring_rolledOver (n : Nfvi) (rolled : List RingRef) (r : RingRef) :
    ring (n.rolledOver rolled) r = MaRing.updateStats^[rolled.count r] (ring n r) := by
  induction rolled generalizing n with
  | nil => rfl
  | cons q rest ih =>
    show ring (rolledOver (setRing n q (ring n q).updateStats) rest) r = _
    rw [ih, ring_setRing, List.count_cons]
    by_cases hrq : r = q
    · subst hrq
      rw [if_pos rfl, beq_self_eq_true, if_pos rfl, Function.iterate_succ_apply]
    · rw [if_neg hrq, if_neg (by simpa using Ne.symm hrq)]
      rfl

theorem rolledOver_kept (n : Nfvi) (rolled : List RingRef) : (n.rolledOver rolled).vnfs = n.vnfs ∧
    (n.rolledOver rolled).vnf = n.vnf ∧ (n.rolledOver rolled).ports = n.ports ∧
    (n.rolledOver rolled).port = n.port ∧ (n.rolledOver rolled).ppps = n.ppps := by
  induction rolled generalizing n with
  | nil => exact ⟨rfl, rfl, rfl, rfl, rfl⟩
  | cons r rest ih =>
    obtain ⟨hvnfs, hvnf, hports, hport, hppps⟩ := ih (setRing n r (ring n r).updateStats)
    refine ⟨hvnfs.trans ?_, hvnf.trans ?_, hports.trans ?_, hport.trans ?_, hppps.trans ?_⟩ <;> cases r <;> rfl

@[simp] theorem rolledOver_vnfs (n : Nfvi) (rolled : List RingRef) : (n.rolledOver rolled).vnfs = n.vnfs :=
  (n.rolledOver_kept rolled).1
@[simp] theorem rolledOver_vnf (n : Nfvi) (rolled : List RingRef) : (n.rolledOver rolled).vnf = n.vnf :=
  (n.rolledOver_kept rolled).2.1
@[simp] theorem rolledOver_ports (n : Nfvi) (rolled : List RingRef) : (n.rolledOver rolled).ports = n.ports :=
  (n.rolledOver_kept rolled).2.2.1
@[simp] theorem rolledOver_port (n : Nfvi) (rolled : List RingRef) : (n.rolledOver rolled).port = n.port :=
  (n.rolledOver_kept rolled).2.2.2.1
@[simp] theorem rolledOver_ppps (n : Nfvi) (rolled : List RingRef) : (n.rolledOver rolled).ppps = n.ppps :=
  (n.rolledOver_kept rolled).2.2.2.2
@[simp] theorem rolledOver_rxOf (n : Nfvi) (rolled : List RingRef) : (n.rolledOver rolled).rxOf = n.rxOf := by
  funext p
  rw [rxOf, rxOf, rolledOver_port]

theorem rolledOver_append (n : Nfvi) (rolled more : List RingRef) :
    (n.rolledOver rolled).rolledOver more = n.rolledOver (rolled ++ more) :=
  (List.foldl_append ..).symm

/-- The ports of live slots are live, and what they receive from is in a panel there is. -/
structure Rollable (n : Nfvi) : Prop where
  slots : ∀ v ∈ n.vnfs, ∀ p, some p ∈ (n.vnf v).ports → p ∈ n.ports
  rings : ∀ p ∈ n.ports, ∀ r, n.rxOf p = some r → r.ppp ∈ n.ppps

theorem Rollable.rolledOver {n : Nfvi} (h : Rollable n) (rolled : List RingRef) : Rollable (n.rolledOver rolled) := by
  constructor
  · simpa using h.slots
  · simpa using h.rings

def portsOf (n : Nfvi) (v : Nat) : List Nat := (n.vnf v).ports.filterMap id

/-- The ports of the VNFs that run, in the order in which a tick comes to them. -/
def runningPorts (n : Nfvi) (vs : List Nat) : List Nat :=
  (vs.filter fun v => (n.vnf v).isRunning).flatMap n.portsOf

variable {n : Nfvi}

@[simp] theorem rolledOver_runningPorts (n : Nfvi) (rolled : List RingRef) :
    (n.rolledOver rolled).runningPorts = n.runningPorts := by
  have hports : (n.rolledOver rolled).portsOf = n.portsOf := by
    funext v
    rw [portsOf, portsOf, rolledOver_vnf]
  funext vs
  rw [runningPorts, runningPorts, rolledOver_vnf, hports]

theorem statsUpdatePer1sec_run {p : Nat} (h : Rollable n) (hp : p ∈ n.ports) :
    statsUpdatePer1sec p n = .ret (n.rxOf p).toList (n.rolledOver (n.rxOf p).toList) := by
  rw [statsUpdatePer1sec, Proc.bind_ret (portAt_of_mem hp), rxOf]
  cases hdev : (n.port p).dev with
  | dpdk portId socketId ma => rfl
  | virt tx rx =>
    cases rx with
    | none => rfl
    | some r =>
      have hppp : r.ppp ∈ n.ppps := h.rings p hp r (by rw [rxOf, hdev])
      have hring : onRing (some r) (Proc.modify MaRing.updateStats) n =
          .ret () (setRing n r (ring n r).updateStats) := by
        rw [onRing, Proc.get_bind]
        simp [hppp, Proc.zoom]
      show rollOver r n = _
      rw [rollOver, Proc.bind_ret hring]
      rfl

theorem updateSlots_run {slots : List (Option Nat)} (h : Rollable n) (hfull : none ∉ slots)
    (hlive : ∀ p, some p ∈ slots → p ∈ n.ports) : updateSlots slots n =
      .ret ((slots.filterMap id).filterMap n.rxOf) (n.rolledOver ((slots.filterMap id).filterMap n.rxOf)) := by
  induction slots generalizing n with
  | nil => rfl
  | cons slot rest ih =>
    cases slot with
    | none => exact absurd List.mem_cons_self hfull
    | some p =>
      have hp := statsUpdatePer1sec_run h (hlive p List.mem_cons_self)
      have hrest := ih (h.rolledOver (n.rxOf p).toList) (fun hn => hfull (List.mem_cons_of_mem _ hn))
        (by simpa using fun q hq => hlive q (List.mem_cons_of_mem _ hq))
      rw [updateSlots, Proc.bind_ret hp, Proc.bind_ret hrest]
      simp only [rolledOver_rxOf, rolledOver_append, List.filterMap_cons, id_eq]
      cases n.rxOf p <;> rfl

theorem updateVnfs_run {vs : List Nat} (h : Rollable n) (hvs : ∀ v ∈ vs, v ∈ n.vnfs)
    (hfull : ∀ v ∈ vs, (n.vnf v).isRunning = true → none ∉ (n.vnf v).ports) : updateVnfs vs n =
      .ret ((n.runningPorts vs).filterMap n.rxOf) (n.rolledOver ((n.runningPorts vs).filterMap n.rxOf)) := by
  induction vs generalizing n with
  | nil => rfl
  | cons v rest ih =>
    have hv := hvs v List.mem_cons_self
    rw [updateVnfs, Proc.bind_ret (vnfAt_of_mem hv)]
    by_cases hrun : (n.vnf v).isRunning = true
    · have hslots : updateStats v n = _ := (Proc.bind_ret (vnfAt_of_mem hv)).trans
        (updateSlots_run h (hfull v List.mem_cons_self hrun) (h.slots v hv))
      have hrest := ih (h.rolledOver (((n.vnf v).ports.filterMap id).filterMap n.rxOf))
        (by simpa using fun u hu => hvs u (List.mem_cons_of_mem _ hu))
        (by simpa using fun u hu => hfull u (List.mem_cons_of_mem _ hu))
      have hcons : n.runningPorts (v :: rest) = (n.vnf v).ports.filterMap id ++ n.runningPorts rest := by
        simp [runningPorts, portsOf, hrun]
      rw [rolledOver_rxOf, rolledOver_runningPorts, rolledOver_append] at hrest
      rw [if_pos hrun, Proc.bind_ret hslots, Proc.bind_ret hrest, hcons, List.filterMap_append]
      rfl
    · have hrest := ih h (fun u hu => hvs u (List.mem_cons_of_mem _ hu))
        (fun u hu => hfull u (List.mem_cons_of_mem _ hu))
      rw [if_neg hrun, Proc.pure_bind, Proc.bind_ret hrest]
      simp [runningPorts, hrun]

/-! ### A tick that does not come back -/

theorem updateSlots_stuck {slots : List (Option Nat)} (hnone : none ∈ slots) (n : Nfvi) :
    Stuck (updateSlots slots) n := by
  induction slots generalizing n with
  | nil => cases hnone
  | cons slot rest ih =>
    cases slot with
    | none => exact nofun
    | some p =>
      have hrest : none ∈ rest := by simpa using hnone
      exact Proc.stuck_bind fun _ n' _ => (ih hrest n').bind _

theorem keeps_updateSlots (slots : List (Option Nat)) : Proc.Keeps Nfvi.vnf (updateSlots slots) := by
  have hroll (r : RingRef) : Proc.Keeps Nfvi.vnf (rollOver r) := by
    refine Proc.within_bind (Proc.within_bind Proc.within_get fun n => ?_) fun _ => Proc.within_pure _
    exact Proc.within_ite (Proc.within_zoom fun n x => by cases r <;> rfl) (Proc.within_crash _)
  have hport (p : Nat) : Proc.Keeps Nfvi.vnf (statsUpdatePer1sec p) := by
    refine Proc.within_bind (within_portAt p) fun port => ?_
    split
    · exact Proc.within_pure _
    · exact Proc.within_pure _
    · exact hroll _
  induction slots with
  | nil => exact Proc.within_pure _
  | cons slot rest ih =>
    cases slot with
    | none => exact Proc.within_crash _
    | some p => exact Proc.within_bind (hport p) fun _ => Proc.within_bind ih fun _ => Proc.within_pure _

theorem updateVnfs_stuck {vs : List Nat} {v : Nat} (hv : v ∈ vs) (hrun : (n.vnf v).isRunning = true)
    (hnone : none ∈ (n.vnf v).ports) : Stuck (updateVnfs vs) n := by
  induction vs generalizing n with
  | nil => cases hv
  | cons u rest ih =>
    apply Proc.stuck_bind
    intro x n₁ hx
    obtain ⟨rfl, rfl⟩ := vnfAt_ret hx
    rcases List.mem_cons.mp hv with rfl | hv
    · rw [if_pos hrun]
      apply Stuck.bind
      apply Proc.stuck_bind
      intro x n₂ hx
      obtain ⟨rfl, rfl⟩ := vnfAt_ret hx
      exact updateSlots_stuck hnone n₂
    · apply Proc.stuck_bind
      intro rolled n₂ hrolled
      have hkeep : Proc.Keeps Nfvi.vnf (if (n₁.vnf u).isRunning then updateStats u else pure []) :=
        Proc.within_ite (Proc.within_bind (within_vnfAt u) fun x => keeps_updateSlots x.ports) (Proc.within_pure _)
      have hvnf : n₂.vnf = n₁.vnf := (hkeep n₁).1 rolled n₂ hrolled
      exact (ih hv (hvnf ▸ hrun) (hvnf ▸ hnone)).bind _

end Nfvi

/-! ### Once a tick -/

namespace Nfvi

/-- The port is there, and the VNF it is attached to runs. -/
def OnRunning (n : Nfvi) (p : Nat) : Prop :=
  p ∈ n.ports ∧ ∃ v ∈ n.vnfs, (n.port p).attachedVnf = some v ∧ (n.vnf v).isRunning = true

/-- The tick comes back, and has rolled over once each ring of each panel one end of which is
on a VNF that runs. -/
def RolledOnce (n : Nfvi) : Prop :=
  ∃ rolled n', timercallback n = .ret rolled n' ∧ ∀ a ∈ n.ppps,
    n.OnRunning (n.ppp a).left ∨ n.OnRunning (n.ppp a).right → ∀ r, r = .leftEnq a ∨ r = .rightEnq a →
      rolled.count r = 1 ∧ ring n' r = (ring n r).updateStats

/-- No VNF that runs has an empty slot, and a panel with one end on a VNF that runs is between two
ports, both of them on VNFs that run. -/
structure BothEndsRun (n : Nfvi) : Prop where
  slots : ∀ v ∈ n.vnfs, (n.vnf v).isRunning = true → none ∉ (n.vnf v).ports
  ends : ∀ a ∈ n.ppps, n.OnRunning (n.ppp a).left ∨ n.OnRunning (n.ppp a).right →
    (n.ppp a).left ≠ (n.ppp a).right ∧ n.OnRunning (n.ppp a).left ∧ n.OnRunning (n.ppp a).right

theorem rxOf_iff {n : Nfvi} {p : Nat} {r : RingRef} :
    n.rxOf p = some r ↔ ∃ tx, n.wiring.link p = some (tx, some r) := by
  show _ ↔ ∃ tx, (n.port p).dev.link = _
  rw [rxOf]
  cases (n.port p).dev <;> simp [Dev.link]

section Tick
variable {n : Nfvi} (hatt : n.wiring.Attached)
include hatt

theorem mem_runningPorts {p : Nat} : p ∈ n.runningPorts n.vnfs ↔ n.OnRunning p := by
  simp only [runningPorts, portsOf, List.mem_flatMap, List.mem_filter, List.mem_filterMap, id_eq, exists_eq_right]
  constructor
  · rintro ⟨v, ⟨hv, hrun⟩, hp⟩
    obtain ⟨pid, hpid⟩ := List.getElem?_of_mem hp
    exact ⟨hatt.slot_live v hv pid p hpid, v, hv, hatt.slot_owner v hv pid p hpid, hrun⟩
  · rintro ⟨hp, v, hv, howner, hrun⟩
    obtain ⟨-, pid, hpid⟩ := hatt.owner_slot p hp v howner
    exact ⟨v, ⟨hv, hrun⟩, List.mem_of_getElem? hpid⟩

theorem nodup_runningPorts : (n.runningPorts n.vnfs).Nodup := by
  have hvnfs : n.vnfs.Nodup := hatt.vnf_names.of_map
  rw [runningPorts, List.nodup_flatMap]
  constructor
  · intro v hv
    have hv := (List.mem_filter.mp hv).1
    rw [portsOf, List.Nodup, List.pairwise_filterMap, List.pairwise_iff_getElem]
    rintro i j hi hj hij p hp q hq rfl
    have hslot {k : Nat} (hk : k < (n.vnf v).ports.length) (h : id (n.vnf v).ports[k] = some p) :
        n.wiring.Slot v k p := by
      show (n.vnf v).ports[k]? = _
      rw [List.getElem?_eq_getElem hk]
      exact congrArg some h
    have hsame := hatt.slot_inj v hv i j p (hslot hi hp) (hslot hj hq)
    omega
  · apply (hvnfs.filter _).imp_of_mem
    intro u v hu hv huv p hpu hpv
    have howner {x : Nat} (hx : x ∈ n.vnfs) (hp : p ∈ n.portsOf x) : n.wiring.owner p = some x := by
      obtain ⟨slot, hslot, rfl⟩ := List.mem_filterMap.mp hp
      obtain ⟨pid, hpid⟩ := List.getElem?_of_mem hslot
      exact hatt.slot_owner x hx pid p hpid
    have hsame := (howner (List.mem_filter.mp hu).1 hpu).symm.trans (howner (List.mem_filter.mp hv).1 hpv)
    exact huv (Option.some.inj hsame)

theorem mem_rolled {r : RingRef} :
    r ∈ (n.runningPorts n.vnfs).filterMap n.rxOf ↔ ∃ p, n.OnRunning p ∧ n.rxOf p = some r := by
  rw [List.mem_filterMap]
  exact exists_congr fun p => and_congr_left fun _ => mem_runningPorts hatt

variable (hpan : n.wiring.Panelled)
include hpan

theorem rollable : Rollable n := by
  constructor
  · intro v hv p hp
    obtain ⟨pid, hpid⟩ := List.getElem?_of_mem hp
    exact hatt.slot_live v hv pid p hpid
  · intro p hp r hr
    obtain ⟨tx, hlink⟩ := rxOf_iff.mp hr
    cases r with
    | leftEnq a => exact (hpan.rx_left p hp tx a hlink).1
    | rightEnq a => exact (hpan.rx_right p hp tx a hlink).1

/-- What a tick rolls over: nothing twice. -/
theorem nodup_rolled : ((n.runningPorts n.vnfs).filterMap n.rxOf).Nodup := by
  rw [List.Nodup, List.pairwise_filterMap]
  apply (nodup_runningPorts hatt).imp_of_mem
  rintro p q hp hq hpq r hr r' hr' rfl
  have hp := ((mem_runningPorts hatt).mp hp).1
  have hq := ((mem_runningPorts hatt).mp hq).1
  obtain ⟨tx, hlink⟩ := rxOf_iff.mp hr
  obtain ⟨tx', hlink'⟩ := rxOf_iff.mp hr'
  cases r with
  | leftEnq a => exact hpq ((hpan.rx_left p hp tx a hlink).2.trans (hpan.rx_left q hq tx' a hlink').2.symm)
  | rightEnq a => exact hpq ((hpan.rx_right p hp tx a hlink).2.1.trans (hpan.rx_right q hq tx' a hlink').2.1.symm)

theorem timercallback_run (hslots : ∀ v ∈ n.vnfs, (n.vnf v).isRunning = true → none ∉ (n.vnf v).ports) :
    timercallback n = .ret ((n.runningPorts n.vnfs).filterMap n.rxOf)
      (n.rolledOver ((n.runningPorts n.vnfs).filterMap n.rxOf)) :=
  updateVnfs_run (rollable hatt hpan) (fun _ h => h) hslots

theorem rolledOnce_iff : n.RolledOnce ↔ n.BothEndsRun := by
  constructor
  · rintro ⟨rolled, n', hrun, honce⟩
    have hslots (v : Nat) (hv : v ∈ n.vnfs) (hv' : (n.vnf v).isRunning = true) : none ∉ (n.vnf v).ports :=
      fun hnone => updateVnfs_stuck hv hv' hnone _ _ hrun
    refine ⟨hslots, fun a ha hend => ?_⟩
    rw [timercallback_run hatt hpan hslots] at hrun
    cases hrun
    -- each of the two rings was rolled over by way of the port that receives from it
    have hmem (r : RingRef) (hr : r = .leftEnq a ∨ r = .rightEnq a) :
        ∃ p tx, n.OnRunning p ∧ n.wiring.link p = some (tx, some r) := by
      have hcount := (honce a ha hend r hr).1
      have hpos : 0 < ((n.runningPorts n.vnfs).filterMap n.rxOf).count r := by
        omega
      obtain ⟨p, hp, hrx⟩ := (mem_rolled hatt).mp (List.count_pos_iff.mp hpos)
      obtain ⟨tx, hlink⟩ := rxOf_iff.mp hrx
      exact ⟨p, tx, hp, hlink⟩
    obtain ⟨p, tx, hp, hlink⟩ := hmem _ (.inl rfl)
    obtain ⟨q, tx', hq, hlink'⟩ := hmem _ (.inr rfl)
    obtain ⟨-, rfl⟩ := hpan.rx_left p hp.1 tx a hlink
    obtain ⟨-, rfl, hne⟩ := hpan.rx_right q hq.1 tx' a hlink'
    exact ⟨hne, hq, hp⟩
  · intro h
    refine ⟨_, _, timercallback_run hatt hpan h.slots, fun a ha hend r hr => ?_⟩
    obtain ⟨hne, hleft, hright⟩ := h.ends a ha hend
    have hmem : r ∈ (n.runningPorts n.vnfs).filterMap n.rxOf := by
      rw [mem_rolled hatt]
      rcases hr with rfl | rfl
      · exact ⟨_, hright, rxOf_iff.mpr ⟨_, hpan.right a ha hright.1⟩⟩
      · exact ⟨_, hleft, rxOf_iff.mpr ⟨_, hpan.left a ha hleft.1 hne⟩⟩
    have hcount := List.count_eq_one_of_mem (nodup_rolled hatt hpan) hmem
    rw [ring_rolledOver, hcount]
    exact ⟨rfl, rfl⟩

end Tick

end Nfvi

theorem panelled_of_run {Rule : Sys → Label → Prop} {nSocket nLcore : Nat} {catalog : List (String × VnfClass)}
    {ls : List Label} {s : Sys} (h : Runs Sys.step Rule (.init nSocket nLcore catalog) ls s) :
    s.nfvi.wiring.Attached ∧ s.nfvi.wiring.Panelled := by
  refine h.invariant (I := fun s => s.nfvi.wiring.Attached ∧ s.nfvi.wiring.Panelled)
    ⟨Wiring.attached_init nSocket catalog, ?_⟩ fun s _ _ hI _ hstep => ?_
  · constructor <;> simp [Sys.init, Nfvi.wiring]
  · have hmoved := Sys.step_moved .trivial (fun r _ => s.nfvi.admits_trivial r) hstep
    exact ⟨hI.1.moved hmoved, hI.2.moved hI.1 hmoved⟩

/-- **When a tick does its work**, in any state of any run. -/
theorem rolledOnce_iff_of_run {nSocket nLcore : Nat} {catalog : List (String × VnfClass)} {ls : List Label}
    {s : Sys} (h : Runs Sys.step Always (.init nSocket nLcore catalog) ls s) :
    s.nfvi.RolledOnce ↔ s.nfvi.BothEndsRun :=
  Nfvi.rolledOnce_iff (panelled_of_run h).1 (panelled_of_run h).2

/-- A VNF on ports `p` and `q` is deployed on lcore 2 and its worker has stored the flag. -/
def deployOn (p q : String) : List Label :=
  [.request (.vnfPost "v" (some "l2fwd") fun _ => (0, 0)), .request (.slotPut "v" 0 (some p)),
    .request (.slotPut "v" 1 (some q)), .request (.resetPut "v"), .request (.coremaskPut "v" 0 (some 4)),
    .request (.deployPut "v"), .ctl, .ctl, .ctl, .wrk 2, .wrk 2]

/-- Both ends of a panel on one VNF. -/
theorem rolledOnce_of_loopRun :
    ∃ s, exec Sys.step (.init 1 4 mainCatalog) (patchRun ++ deployOn "a" "b") = some s ∧
      s.nfvi.ppps = [2] ∧ s.nfvi.OnRunning 0 ∧ s.nfvi.RolledOnce := by
  obtain ⟨s, hs, heq⟩ := Option.map_eq_some_iff.mp (show
    (exec Sys.step (.init 1 4 mainCatalog) (patchRun ++ deployOn "a" "b")).map (fun s => decide (s.nfvi.ppps = [2] ∧
      s.nfvi.ports = [0, 1] ∧ s.nfvi.vnfs = [3] ∧ (s.nfvi.ppp 2).left = 1 ∧ (s.nfvi.ppp 2).right = 0 ∧
      (s.nfvi.port 0).attachedVnf = some 3 ∧ (s.nfvi.port 1).attachedVnf = some 3 ∧
      (s.nfvi.vnf 3).isRunning = true ∧ (s.nfvi.vnf 3).ports = [some 0, some 1])) = some true by decide +kernel)
  obtain ⟨hppps, hports, hvnfs, hleft, hright, hown0, hown1, hrun, hslots⟩ := of_decide_eq_true heq
  have hon0 : s.nfvi.OnRunning 0 := ⟨by simp [hports], 3, by simp [hvnfs], hown0, hrun⟩
  have hon1 : s.nfvi.OnRunning 1 := ⟨by simp [hports], 3, by simp [hvnfs], hown1, hrun⟩
  refine ⟨s, hs, hppps, hon0, (rolledOnce_iff_of_run (Runs.of_exec hs)).mpr ⟨?_, ?_⟩⟩
  · intro v hv _
    obtain rfl : v = 3 := by simpa [hvnfs] using hv
    simp [hslots]
  · intro a ha _
    obtain rfl : a = 2 := by simpa [hppps] using ha
    rw [hleft, hright]
    exact ⟨by decide, hon1, hon0⟩

/-- One end of a panel on a VNF that runs, and nothing on the other end. -/
theorem not_rolledOnce :
    ∃ s, exec Sys.step (.init 1 4 mainCatalog) (patchRun ++ [.request (pciPort "c")] ++ deployOn "a" "c") = some s ∧
      s.nfvi.ppps = [2] ∧ (s.nfvi.ppp 2).right = 0 ∧ s.nfvi.OnRunning 0 ∧
      (∃ n', Nfvi.timercallback s.nfvi = .ret [.leftEnq 2] n') ∧ ¬ s.nfvi.RolledOnce := by
  obtain ⟨s, hs, heq⟩ := Option.map_eq_some_iff.mp (show
    (exec Sys.step (.init 1 4 mainCatalog)
      (patchRun ++ [.request (pciPort "c")] ++ deployOn "a" "c")).map (fun s => decide (
      s.nfvi.ppps = [2] ∧ s.nfvi.ports = [0, 1, 3] ∧ s.nfvi.vnfs = [4] ∧ (s.nfvi.ppp 2).right = 0 ∧
      (s.nfvi.port 0).attachedVnf = some 4 ∧ (s.nfvi.vnf 4).isRunning = true ∧
      (Nfvi.timercallback s.nfvi).ret?.map Prod.fst = some [.leftEnq 2])) = some true by decide +kernel)
  obtain ⟨hppps, hports, hvnfs, hright, hown, hrun, hrolled⟩ := of_decide_eq_true heq
  have hon : s.nfvi.OnRunning 0 := ⟨by simp [hports], 4, by simp [hvnfs], hown, hrun⟩
  obtain ⟨n', hret⟩ : ∃ n', Nfvi.timercallback s.nfvi = .ret [.leftEnq 2] n' := by
    obtain ⟨⟨rolled, n'⟩, hret, rfl⟩ := Option.map_eq_some_iff.mp hrolled
    exact ⟨n', Outcome.eq_ret_of_ret? hret⟩
  refine ⟨s, hs, hppps, hright, hon, ⟨n', hret⟩, ?_⟩
  rintro ⟨rolled, n'', hret', honce⟩
  rw [hret] at hret'
  cases hret'
  have hcount := (honce 2 (by simp [hppps]) (.inr (hright ▸ hon)) (.rightEnq 2) (.inr rfl)).1
  exact absurd hcount (by decide)

end Susanow
