import Susanow.Nfvi.Workers

/-! The accessors of a port, and who writes them.

A device keeps its accessors itself; a virt port polls the dequeue side of one ring
of its panel and sends by the enqueue side of the other. No two ports share a side
of a ring (`Linked`), so the deploy of a VNF writes the accessors of its own ports
only, and a panel that goes takes those of its two ends. -/
namespace Susanow

namespace Wiring
open Function (update)

/-- A ring has one port at either side, and its panel has been allocated. -/
structure Linked (w : Wiring) : Prop where
  tx_lt : ∀ p r rx, w.link p = some (some r, rx) → r.ppp < w.next
  rx_lt : ∀ p tx r, w.link p = some (tx, some r) → r.ppp < w.next
  tx_inj : ∀ p q r rx rx', w.link p = some (some r, rx) → w.link q = some (some r, rx') → p = q
  rx_inj : ∀ p q tx tx' r, w.link p = some (tx, some r) → w.link q = some (tx', some r) → p = q

section Patch
variable {link : Nat → Option (Option RingRef × Option RingRef)} {a l r p : Nat} {e : RingRef}

theorem patchLink_tx {rx : Option RingRef} (h : patchLink link a l r p = some (some e, rx)) :
    p = r ∧ e = .rightEnq a ∨ p = l ∧ e = .leftEnq a ∨ link p = some (some e, rx) := by
  unfold patchLink at h
  by_cases hr : p = r
  · subst hr
    simp only [Function.update_self] at h
    cases h
    exact .inl ⟨rfl, rfl⟩
  · rw [Function.update_of_ne hr] at h
    by_cases hl : p = l
    · subst hl
      simp only [Function.update_self] at h
      cases h
      exact .inr (.inl ⟨rfl, rfl⟩)
    · rw [Function.update_of_ne hl] at h
      exact .inr (.inr h)

theorem patchLink_rx {tx : Option RingRef} (h : patchLink link a l r p = some (tx, some e)) :
    p = r ∧ e = .leftEnq a ∨ p = l ∧ e = .rightEnq a ∨ link p = some (tx, some e) := by
  unfold patchLink at h
  by_cases hr : p = r
  · subst hr
    simp only [Function.update_self] at h
    cases h
    exact .inl ⟨rfl, rfl⟩
  · rw [Function.update_of_ne hr] at h
    by_cases hl : p = l
    · subst hl
      simp only [Function.update_self] at h
      cases h
      exact .inr (.inl ⟨rfl, rfl⟩)
    · rw [Function.update_of_ne hl] at h
      exact .inr (.inr h)

theorem unpatchLink_some {tx rx : Option RingRef} (h : unpatchLink link l r p = some (tx, rx))
    (hne : tx ≠ none ∨ rx ≠ none) : link p = some (tx, rx) := by
  unfold unpatchLink at h
  by_cases hr : p = r
  · subst hr
    simp only [Function.update_self] at h
    cases h
    simp at hne
  · rw [Function.update_of_ne hr] at h
    by_cases hl : p = l
    · subst hl
      simp only [Function.update_self] at h
      cases h
      simp at hne
    · rwa [Function.update_of_ne hl] at h

end Patch

namespace Linked
variable {w w' : Wiring} {g : Guard}

/-- Links are only lost. -/
theorem of_sub (h : Linked w) (hnext : w.next ≤ w'.next)
    (hsub : ∀ p tx rx, w'.link p = some (tx, rx) → tx ≠ none ∨ rx ≠ none → w.link p = some (tx, rx)) :
    Linked w' where
  tx_lt p r rx hp := (h.tx_lt p r rx (hsub p _ _ hp (.inl nofun))).trans_le hnext
  rx_lt p tx r hp := (h.rx_lt p tx r (hsub p _ _ hp (.inr nofun))).trans_le hnext
  tx_inj p q r rx rx' hp hq :=
    h.tx_inj p q r rx rx' (hsub p _ _ hp (.inl nofun)) (hsub q _ _ hq (.inl nofun))
  rx_inj p q tx tx' r hp hq :=
    h.rx_inj p q tx tx' r (hsub p _ _ hp (.inr nofun)) (hsub q _ _ hq (.inr nofun))

theorem addPpp (h : Linked w) {l r : Nat} (hnext : w'.next = w.next + 1)
    (hlink : w'.link = patchLink w.link w.next l r) : Linked w' where
  tx_lt p e rx hp := by
    rw [hlink] at hp
    rw [hnext]
    rcases patchLink_tx hp with ⟨-, rfl⟩ | ⟨-, rfl⟩ | hp
    · exact Nat.lt_succ_self _
    · exact Nat.lt_succ_self _
    · exact Nat.lt_succ_of_lt (h.tx_lt p e rx hp)
  rx_lt p tx e hp := by
    rw [hlink] at hp
    rw [hnext]
    rcases patchLink_rx hp with ⟨-, rfl⟩ | ⟨-, rfl⟩ | hp
    · exact Nat.lt_succ_self _
    · exact Nat.lt_succ_self _
    · exact Nat.lt_succ_of_lt (h.rx_lt p tx e hp)
  tx_inj p q e rx rx' hp hq := by
    rw [hlink] at hp hq
    have hold {q : Nat} {rx : Option RingRef} (hq : w.link q = some (some e, rx)) : e.ppp ≠ w.next :=
      (h.tx_lt q e rx hq).ne
    rcases patchLink_tx hp with ⟨rfl, he⟩ | ⟨rfl, he⟩ | hold_p <;>
      rcases patchLink_tx hq with ⟨rfl, he'⟩ | ⟨rfl, he'⟩ | hold_q
    all_goals first
      | rfl
      | exact h.tx_inj p q e rx rx' hold_p hold_q
      | exact absurd (congrArg RingRef.ppp he) (hold hold_q)
      | exact absurd (congrArg RingRef.ppp he') (hold hold_p)
      | cases he.symm.trans he'
  rx_inj p q tx tx' e hp hq := by
    rw [hlink] at hp hq
    have hold {q : Nat} {tx : Option RingRef} (hq : w.link q = some (tx, some e)) : e.ppp ≠ w.next :=
      (h.rx_lt q tx e hq).ne
    rcases patchLink_rx hp with ⟨rfl, he⟩ | ⟨rfl, he⟩ | hold_p <;>
      rcases patchLink_rx hq with ⟨rfl, he'⟩ | ⟨rfl, he'⟩ | hold_q
    all_goals first
      | rfl
      | exact h.rx_inj p q tx tx' e hold_p hold_q
      | exact absurd (congrArg RingRef.ppp he) (hold hold_q)
      | exact absurd (congrArg RingRef.ppp he') (hold hold_p)
      | cases he.symm.trans he'

theorem moved (h : Linked w) (hm : Moved g w w') : Linked w' := by
  have hsame {w' : Wiring} (hnext : w.next ≤ w'.next) (hlink : w'.link = w.link) : Linked w' :=
    h.of_sub hnext fun p tx rx hp _ => by rwa [← hlink]
  rcases hm with rfl | hm
  · exact h
  · cases hm with
    | addVnf => exact hsame (Nat.le_succ _) rfl
    | delVnf => exact hsame le_rfl rfl
    | attach => exact hsame le_rfl rfl
    | dettach => exact hsame le_rfl rfl
    | delPort => exact hsame le_rfl rfl
    | addPort name link hname hlink =>
      refine h.of_sub (Nat.le_succ _) fun p tx rx hp hne => ?_
      have hp : update w.link w.next link p = some (tx, rx) := hp
      by_cases hpn : p = w.next
      · subst hpn
        rw [Function.update_self] at hp
        rcases hlink with hlink | hlink <;> rw [hlink] at hp <;> cases hp
        simp at hne
      · rwa [Function.update_of_ne hpn] at hp
    | addPpp name l r => exact h.addPpp rfl rfl
    | delPpp a => exact h.of_sub le_rfl fun p tx rx hp hne => unpatchLink_some hp hne

end Linked

theorem linked_init (nSocket : Nat) (catalog : List (String × VnfClass)) :
    Linked (Nfvi.wiring {nSocket := nSocket, catalog := catalog}) := by
  constructor <;> simp [Nfvi.wiring, Dev.link]

end Wiring

/-- The accessors of a port. -/
inductive PortTables
  | device (rx tx : MaPort.Oneside)
  | rings (rx tx : List Accessor)
  deriving DecidableEq

namespace Nfvi
open Proc (Within Meets)

/-- One side of the ring a port points to; without a ring there are no accessors. -/
def ringSide (n : Nfvi) (side : MaRing Mbuf → List Accessor) (r : Option RingRef) : List Accessor :=
  (r.map fun e => side (n.ring e)).getD []

def portTables (n : Nfvi) (p : Nat) : PortTables :=
  match (n.port p).dev with
  | .dpdk _ _ ma => .device ma.rx ma.tx
  | .virt tx rx => .rings (n.ringSide MaRing.deqAccessors rx) (n.ringSide MaRing.enqAccessors tx)

theorem portTables_congr {n n' : Nfvi} {p : Nat} (hdev : (n'.port p).dev = (n.port p).dev)
    (hrx : ∀ tx r, (n.port p).dev = .virt tx (some r) → (n'.ring r).deqAccessors = (n.ring r).deqAccessors)
    (htx : ∀ r rx, (n.port p).dev = .virt (some r) rx → (n'.ring r).enqAccessors = (n.ring r).enqAccessors) :
    n'.portTables p = n.portTables p := by
  unfold portTables
  rw [hdev]
  cases h : (n.port p).dev with
  | dpdk => rfl
  | virt tx rx =>
    have hside (side : MaRing Mbuf → List Accessor) (r : Option RingRef)
        (hr : ∀ e ∈ r, side (n'.ring e) = side (n.ring e)) : n'.ringSide side r = n.ringSide side r := by
      cases r with
      | none => rfl
      | some e => exact hr e rfl
    have hdeq := hside MaRing.deqAccessors rx fun e he => hrx tx e (by rw [h, he])
    have henq := hside MaRing.enqAccessors tx fun e he => htx e rx (by rw [h, he])
    exact congrArg₂ PortTables.rings hdeq henq

/-! ### Accessors of one port -/

section OnePort
variable {n : Nfvi} {p q : Nat}

theorem portTables_setDev (d : Dev) (hne : p ≠ q) : (n.editPort q (VnfPort.setDev d)).portTables p = n.portTables p :=
  portTables_congr (congrArg VnfPort.dev (Function.update_of_ne hne _ _)) (fun _ _ _ => rfl) fun _ _ _ => rfl

theorem portTables_setDeq (hlinked : n.wiring.Linked) {tx : Option RingRef} {r : RingRef}
    (hdev : (n.port q).dev = .virt tx (some r)) (accs : List Accessor) (hne : p ≠ q) :
    (setRing n r {ring n r with deqAccessors := accs}).portTables p = n.portTables p := by
  refine portTables_congr (by cases r <;> rfl) (fun tx' r' hp => ?_) fun r' rx' _ => ?_
  · rw [ring_setRing, if_neg]
    rintro rfl
    exact hne (hlinked.rx_inj p q tx' tx r' (dev_link_virt hp) (dev_link_virt hdev))
  · rw [ring_setRing]
    split
    · next h => rw [h]
    · rfl

theorem portTables_setEnq (hlinked : n.wiring.Linked) {rx : Option RingRef} {r : RingRef}
    (hdev : (n.port q).dev = .virt (some r) rx) (accs : List Accessor) (hne : p ≠ q) :
    (setRing n r {ring n r with enqAccessors := accs}).portTables p = n.portTables p := by
  refine portTables_congr (by cases r <;> rfl) (fun tx' r' _ => ?_) fun r' rx' hp => ?_
  · rw [ring_setRing]
    split
    · next h => rw [h]
    · rfl
  · rw [ring_setRing, if_neg]
    rintro rfl
    exact hne (hlinked.tx_inj p q r' rx' rx (dev_link_virt hp) (dev_link_virt hdev))

end OnePort

/-! ### Deploys -/

/-- What a deploy of `w` does to the ports of others: nothing. -/
structure Spares (w : Nat) (n n' : Nfvi) : Prop where
  wiring : n'.wiring = n.wiring
  tables : n.wiring.Linked → ∀ p, some p ∉ (n.vnf w).ports → n'.portTables p = n.portTables p

instance (w : Nat) : IsPreorder Nfvi (Spares w) where
  refl _ := ⟨rfl, fun _ _ _ => rfl⟩
  trans n n' n'' h h' := by
    have hslots : (n'.vnf w).ports = (n.vnf w).ports := congrFun (congrArg Wiring.slots h.wiring) w
    refine ⟨h'.wiring.trans h.wiring, fun hlinked p hp => ?_⟩
    exact (h'.tables (h.wiring ▸ hlinked) p (hslots ▸ hp)).trans (h.tables hlinked p hp)

theorem allowsTables_spares (w : Nat) : AllowsTables w (Spares w) where
  device n i q portId socketId ma ma' hslot hdev := by
    refine ⟨(allowsTables_wiring w).device n i q portId socketId ma ma' hslot hdev, fun _ p hp => ?_⟩
    exact portTables_setDev _ fun hpq => hp (hpq ▸ List.mem_of_getElem? hslot)
  deq n i q tx r accs hslot hdev := by
    refine ⟨(allowsTables_wiring w).deq n i q tx r accs hslot hdev, fun hlinked p hp => ?_⟩
    exact portTables_setDeq hlinked hdev accs fun hpq => hp (hpq ▸ List.mem_of_getElem? hslot)
  enq n i q rx r accs hslot hdev := by
    refine ⟨(allowsTables_wiring w).enq n i q rx r accs hslot hdev, fun hlinked p hp => ?_⟩
    exact portTables_setEnq hlinked hdev accs fun hpq => hp (hpq ▸ List.mem_of_getElem? hslot)

theorem deploy_spares (w : Nat) : Within (Spares w) (deploy w) :=
  Proc.within_bind (allowsTables_spares w).deployPorts fun _ =>
    Proc.within_ite (Proc.within_pure _) (Proc.within_pure _)

/-! ### Panels -/

/-- A panel of new rings, whose ends had no accessors before. -/
theorem patched_tables {n : Nfvi} {name : String} {leftEnq rightEnq : MaRing Mbuf} {l r : Nat}
    (hlinked : n.wiring.Linked) (hl : (n.port l).dev = .virt none none) (hr : (n.port r).dev = .virt none none)
    (hleft : leftEnq.enqAccessors = [] ∧ leftEnq.deqAccessors = [])
    (hright : rightEnq.enqAccessors = [] ∧ rightEnq.deqAccessors = []) (p : Nat) :
    (((n.addPpp ⟨name, leftEnq, rightEnq, l, r⟩).editPort l
        (VnfPort.setDev (.virt (some (.leftEnq n.next)) (some (.rightEnq n.next))))).editPort r
        (VnfPort.setDev (.virt (some (.rightEnq n.next)) (some (.leftEnq n.next))))).portTables p =
      n.portTables p := by
  by_cases hpr : p = r
  · subst hpr
    simp [portTables, hr, editPort, VnfPort.setDev, ringSide, addPpp, ring, hleft.2, hright.1]
  · by_cases hpl : p = l
    · subst hpl
      simp [portTables, hl, editPort, VnfPort.setDev, ringSide, addPpp, ring, hpr, hleft.1, hright.2]
    · have hold {e : RingRef} (he : e.ppp < n.next) (x : PatchPanel) : (n.addPpp x).ring e = n.ring e := by
        have hppp : (n.addPpp x).ppp e.ppp = n.ppp e.ppp := Function.update_of_ne he.ne _ _
        cases e with
        | leftEnq a => exact congrArg PatchPanel.leftEnq hppp
        | rightEnq a => exact congrArg PatchPanel.rightEnq hppp
      refine portTables_congr ?_ (fun tx e hp => ?_) fun e rx hp => ?_
      · simp [editPort, hpr, hpl, addPpp]
      · exact congrArg MaRing.deqAccessors (hold (hlinked.rx_lt p tx e (by simp [wiring, hp, Dev.link])) _)
      · exact congrArg MaRing.enqAccessors (hold (hlinked.tx_lt p e rx (by simp [wiring, hp, Dev.link])) _)

/-- A new panel's rings have no accessors yet, so its ends have none, as before. -/
theorem newPatchPanel_tables (name : String) {r l : Nat} (alloc : Nat → Nat → Bool) (mem : Nat → Nat × Nat)
    {n : Nfvi} (hlinked : n.wiring.Linked) (hl : (n.port l).dev = .virt none none)
    (hr : (n.port r).dev = .virt none none) :
    Meets (newPatchPanel name r l alloc mem) n
      (fun _ n' => (∀ p, n'.portTables p = n.portTables p) ∧ ∀ a ∈ n.ppps, a ∈ n'.ppps)
      (fun n' => n' = n) := by
  by_cases hrlive : r ∈ n.ports
  · by_cases hllive : l ∈ n.ports
    · refine Proc.meets_bind_ret (portAt_of_mem hrlive) (Proc.meets_bind_ret (portAt_of_mem hllive) ?_)
      split
      · have hfresh (k nQue : Nat) (np : String) (m m' : Nat) : Meets
            (Proc.fresh (MaRing.init np m m') (MaRing.configureQue (alloc k) nQue)) n
            (fun (x : MaRing Mbuf) n' => n' = n ∧ x.enqAccessors = [] ∧ x.deqAccessors = []) fun n' => n' = n := by
          have hkeep := MaRing.configureQue_writes (α := Mbuf) (alloc k) nQue (.init np m m')
          refine Proc.meets_fresh ⟨fun _ x hx => ⟨rfl, ?_⟩, fun _ _ _ => rfl⟩
          exact Prod.mk.inj (hkeep.1 _ x hx)
        refine Proc.meets_bind (hfresh 0 _ _ _ _) fun leftEnq n' ⟨hn', hleft⟩ => ?_
        subst n'
        refine Proc.meets_bind (hfresh 1 _ _ _ _) fun rightEnq n' ⟨hn', hright⟩ => ?_
        subst n'
        refine Proc.meets_get_bind (Proc.meets_of_ret rfl ⟨?_, fun a ha => List.mem_append_left _ ha⟩)
        exact patched_tables hlinked hl hr hleft hright
      · exact Proc.meets_throw rfl
    · exact Proc.meets_bind_ret (portAt_of_mem hrlive) (Proc.meets_bind_crash (portAt_of_not_mem hllive))
  · exact Proc.meets_bind_crash (portAt_of_not_mem hrlive)

end Nfvi

end Susanow
