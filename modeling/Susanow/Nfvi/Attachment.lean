import Susanow.Nfvi.Wiring

/-! Attachment is one relation.

A port names the VNF it is attached to and a VNF's slots name ports. The two agree
in every state of every run: the moves that write one write the other, and an object
leaves its table only when nothing points to it. -/
namespace Susanow.Wiring
open Function (update)

def Slot (w : Wiring) (v pid p : Nat) : Prop := (w.slots v)[pid]? = some (some p)

/-- Names are distinct in each table, addresses below `next` are the only ones used, and
slots and owners are inverse to each other. -/
structure Attached (w : Wiring) : Prop where
  vnf_names : (w.vnfs.map w.vnfName).Nodup
  port_names : (w.ports.map w.portName).Nodup
  ppp_names : (w.ppps.map w.pppName).Nodup
  vnf_lt : ∀ v ∈ w.vnfs, v < w.next
  port_lt : ∀ p ∈ w.ports, p < w.next
  ppp_lt : ∀ a ∈ w.ppps, a < w.next
  slot_live : ∀ v ∈ w.vnfs, ∀ pid p, w.Slot v pid p → p ∈ w.ports
  slot_owner : ∀ v ∈ w.vnfs, ∀ pid p, w.Slot v pid p → w.owner p = some v
  slot_inj : ∀ v ∈ w.vnfs, ∀ pid qid p, w.Slot v pid p → w.Slot v qid p → pid = qid
  owner_slot : ∀ p ∈ w.ports, ∀ v, w.owner p = some v → v ∈ w.vnfs ∧ ∃ pid, w.Slot v pid p

/-! ### Tables -/

theorem map_append_next {names : Nat → String} {table : List Nat} {next : Nat} {name : String}
    (hlt : ∀ x ∈ table, x < next) :
    (table ++ [next]).map (update names next name) = table.map names ++ [name] := by
  have hold : table.map (update names next name) = table.map names :=
    List.map_congr_left fun x hx => Function.update_of_ne (Nat.ne_of_lt (hlt x hx)) _ _
  rw [List.map_append, hold]
  simp

/-- A new object under an unused name. -/
theorem names_append {names : Nat → String} {table : List Nat} {next : Nat} {name : String}
    (h : (table.map names).Nodup) (hlt : ∀ x ∈ table, x < next) (hname : ∀ x ∈ table, names x ≠ name) :
    ((table ++ [next]).map (update names next name)).Nodup := by
  rw [map_append_next hlt, List.nodup_append]
  refine ⟨h, by simp, ?_⟩
  intro a ha b hb
  obtain ⟨x, hx, rfl⟩ := List.mem_map.mp ha
  rw [List.mem_singleton.mp hb]
  exact hname x hx

theorem names_erase {names : Nat → String} {table : List Nat} (h : (table.map names).Nodup) (x : Nat) :
    ((table.erase x).map names).Nodup :=
  h.sublist (List.erase_sublist.map names)

theorem lt_append {table : List Nat} {next : Nat} (hlt : ∀ x ∈ table, x < next) :
    ∀ x ∈ table ++ [next], x < next + 1 := by
  intro x hx
  rcases List.mem_append.mp hx with hx | hx
  · exact Nat.lt_succ_of_lt (hlt x hx)
  · rw [List.mem_singleton.mp hx]
    exact Nat.lt_succ_self next

/-- A slot written to. -/
theorem slot_set_iff {w : Wiring} {v pid x qid q : Nat} {o : Option Nat} (hlt : pid < (w.slots v).length) :
    (update w.slots v ((w.slots v).set pid o) x)[qid]? = some (some q) ↔
      if x = v ∧ qid = pid then o = some q else w.Slot x qid q := by
  by_cases hx : x = v
  · subst hx
    by_cases hq : qid = pid
    · subst hq
      simp [hlt]
    · simp [Slot, List.getElem?_set_ne (Ne.symm hq), hq]
  · simp [Slot, hx]

namespace Attached
variable {w w' : Wiring} {g : Guard} (h : Attached w)
include h

theorem mem_erase_vnf {v x : Nat} : x ∈ w.vnfs.erase v ↔ x ≠ v ∧ x ∈ w.vnfs :=
  h.vnf_names.of_map.mem_erase_iff

theorem mem_erase_port {p x : Nat} : x ∈ w.ports.erase p ↔ x ≠ p ∧ x ∈ w.ports :=
  h.port_names.of_map.mem_erase_iff

theorem slot_unattached {v pid p : Nat} (hv : v ∈ w.vnfs) (howner : w.owner p = none) :
    ¬ w.Slot v pid p := by
  intro hs
  rw [h.slot_owner v hv pid p hs] at howner
  cases howner

/-! ### Move by move -/

theorem addVnf {name : String} {nPorts : Nat} (hname : ∀ v ∈ w.vnfs, w.vnfName v ≠ name) :
    Attached {w with vnfs := w.vnfs ++ [w.next], vnfName := update w.vnfName w.next name,
                     slots := update w.slots w.next (List.replicate nPorts none),
                     next := w.next + 1} := by
  have hslot {v pid p : Nat} (hs : (update w.slots w.next (List.replicate nPorts none) v)[pid]? =
      some (some p)) : v ≠ w.next ∧ w.Slot v pid p := by
    by_cases hv : v = w.next
    · subst hv
      simp [List.getElem?_replicate] at hs
    · rw [Function.update_of_ne hv] at hs
      exact ⟨hv, hs⟩
  have hmem {v : Nat} (hv : v ∈ w.vnfs ++ [w.next]) (hne : v ≠ w.next) : v ∈ w.vnfs := by
    simpa [hne] using hv
  exact
  { h with
    vnf_names := names_append h.vnf_names h.vnf_lt hname
    vnf_lt := lt_append h.vnf_lt
    port_lt := fun p hp => Nat.lt_succ_of_lt (h.port_lt p hp)
    ppp_lt := fun a ha => Nat.lt_succ_of_lt (h.ppp_lt a ha)
    slot_live := fun v hv pid p hs =>
      h.slot_live v (hmem hv (hslot hs).1) pid p (hslot hs).2
    slot_owner := fun v hv pid p hs =>
      h.slot_owner v (hmem hv (hslot hs).1) pid p (hslot hs).2
    slot_inj := fun v hv pid qid p hs hs' =>
      h.slot_inj v (hmem hv (hslot hs).1) pid qid p (hslot hs).2 (hslot hs').2
    owner_slot := fun p hp v ho => by
      obtain ⟨hv, pid, hs⟩ := h.owner_slot p hp v ho
      refine ⟨List.mem_append_left _ hv, pid, ?_⟩
      show (update w.slots w.next _ v)[pid]? = _
      rw [Function.update_of_ne (Nat.ne_of_lt (h.vnf_lt v hv))]
      exact hs }

theorem delVnf {v : Nat} (hnull : ∀ slot ∈ w.slots v, slot = none) :
    Attached {w with vnfs := w.vnfs.erase v} where
  __ := h
  vnf_names := names_erase h.vnf_names v
  vnf_lt := fun x hx => h.vnf_lt x (List.mem_of_mem_erase hx)
  slot_live := fun x hx => h.slot_live x (List.mem_of_mem_erase hx)
  slot_owner := fun x hx => h.slot_owner x (List.mem_of_mem_erase hx)
  slot_inj := fun x hx => h.slot_inj x (List.mem_of_mem_erase hx)
  owner_slot := fun p hp x ho => by
    obtain ⟨hx, pid, hs⟩ := h.owner_slot p hp x ho
    refine ⟨h.mem_erase_vnf.mpr ⟨?_, hx⟩, pid, hs⟩
    rintro rfl
    cases hnull _ (List.mem_of_getElem? hs)

theorem attach {v pid p : Nat} (hv : v ∈ w.vnfs) (hempty : (w.slots v)[pid]? = some none)
    (hp : p ∈ w.ports) (howner : w.owner p = none) :
    Attached {w with slots := update w.slots v ((w.slots v).set pid (some p)),
                     owner := update w.owner p (some v)} := by
  have hlt : pid < (w.slots v).length := (List.getElem?_eq_some_iff.mp hempty).1
  have hno (x qid : Nat) (hx : x ∈ w.vnfs) : ¬ w.Slot x qid p := h.slot_unattached hx howner
  exact
  { h with
    slot_live := fun x hx qid q hs => by
      have hs := (slot_set_iff hlt).mp hs
      split_ifs at hs with hxq
      · cases hs
        exact hp
      · exact h.slot_live x hx qid q hs
    slot_owner := fun x hx qid q hs => by
      have hs := (slot_set_iff hlt).mp hs
      show update w.owner p (some v) q = some x
      split_ifs at hs with hxq
      · cases hs
        rw [Function.update_self, hxq.1]
      · have hqp : q ≠ p := fun hqp => hno x qid hx (hqp ▸ hs)
        rw [Function.update_of_ne hqp]
        exact h.slot_owner x hx qid q hs
    slot_inj := fun x hx qid rid q hs hs' => by
      have hs := (slot_set_iff hlt).mp hs
      have hs' := (slot_set_iff hlt).mp hs'
      split_ifs at hs hs' with hxq hxr hxr
      · rw [hxq.2, hxr.2]
      · cases hs
        exact absurd hs' (hno x rid hx)
      · cases hs'
        exact absurd hs (hno x qid hx)
      · exact h.slot_inj x hx qid rid q hs hs'
    owner_slot := fun q hq x ho => by
      have ho : update w.owner p (some v) q = some x := ho
      by_cases hqp : q = p
      · subst hqp
        rw [Function.update_self] at ho
        cases ho
        exact ⟨hv, pid, (slot_set_iff hlt).mpr (by simp)⟩
      · rw [Function.update_of_ne hqp] at ho
        obtain ⟨hx, qid, hs⟩ := h.owner_slot q hq x ho
        refine ⟨hx, qid, (slot_set_iff hlt).mpr ?_⟩
        rw [if_neg]
        · exact hs
        · rintro ⟨rfl, rfl⟩
          rw [Slot, hempty] at hs
          cases hs }

theorem dettach {v pid p : Nat} (hv : v ∈ w.vnfs) (hslot : w.Slot v pid p) :
    Attached {w with slots := update w.slots v ((w.slots v).set pid none),
                     owner := update w.owner p none} := by
  have hlt : pid < (w.slots v).length := (List.getElem?_eq_some_iff.mp hslot).1
  -- the slots that remain are old ones, and none of them names `p`
  have hold {x qid q : Nat} (hx : x ∈ w.vnfs)
      (hs : (update w.slots v ((w.slots v).set pid none) x)[qid]? = some (some q)) :
      w.Slot x qid q ∧ q ≠ p := by
    have hs := (slot_set_iff hlt).mp hs
    split_ifs at hs with hxq
    refine ⟨hs, ?_⟩
    rintro rfl
    have hxv := h.slot_owner x hx qid q hs
    rw [h.slot_owner v hv pid q hslot] at hxv
    cases hxv
    exact hxq ⟨rfl, h.slot_inj v hv qid pid q hs hslot⟩
  exact
  { h with
    slot_live := fun x hx qid q hs => h.slot_live x hx qid q (hold hx hs).1
    slot_owner := fun x hx qid q hs => by
      show update w.owner p none q = some x
      rw [Function.update_of_ne (hold hx hs).2]
      exact h.slot_owner x hx qid q (hold hx hs).1
    slot_inj := fun x hx qid rid q hs hs' =>
      h.slot_inj x hx qid rid q (hold hx hs).1 (hold hx hs').1
    owner_slot := fun q hq x ho => by
      have ho : update w.owner p none q = some x := ho
      by_cases hqp : q = p
      · subst hqp
        rw [Function.update_self] at ho
        cases ho
      · rw [Function.update_of_ne hqp] at ho
        obtain ⟨hx, qid, hs⟩ := h.owner_slot q hq x ho
        refine ⟨hx, qid, (slot_set_iff hlt).mpr ?_⟩
        rw [if_neg]
        · exact hs
        · rintro ⟨rfl, rfl⟩
          rw [Slot, hslot] at hs
          cases hs
          exact hqp rfl }

theorem addPort {name : String} {link : Option (Option RingRef × Option RingRef)}
    (hname : ∀ p ∈ w.ports, w.portName p ≠ name) :
    Attached {w with ports := w.ports ++ [w.next], portName := update w.portName w.next name,
                     owner := update w.owner w.next none, link := update w.link w.next link,
                     next := w.next + 1} where
  __ := h
  port_names := names_append h.port_names h.port_lt hname
  vnf_lt := fun v hv => Nat.lt_succ_of_lt (h.vnf_lt v hv)
  port_lt := lt_append h.port_lt
  ppp_lt := fun a ha => Nat.lt_succ_of_lt (h.ppp_lt a ha)
  slot_live := fun v hv pid p hs => List.mem_append_left _ (h.slot_live v hv pid p hs)
  slot_owner := fun v hv pid p hs => by
    have hne : p ≠ w.next := Nat.ne_of_lt (h.port_lt p (h.slot_live v hv pid p hs))
    show update w.owner w.next none p = some v
    rw [Function.update_of_ne hne]
    exact h.slot_owner v hv pid p hs
  owner_slot := fun p hp v ho => by
    have ho : update w.owner w.next none p = some v := ho
    by_cases hne : p = w.next
    · subst hne
      rw [Function.update_self] at ho
      cases ho
    · rw [Function.update_of_ne hne] at ho
      exact h.owner_slot p (by simpa [hne] using hp) v ho

theorem delPort {p : Nat} (howner : w.owner p = none) :
    Attached {w with ports := w.ports.erase p} where
  __ := h
  port_names := names_erase h.port_names p
  port_lt := fun q hq => h.port_lt q (List.mem_of_mem_erase hq)
  slot_live := fun v hv pid q hs => by
    refine h.mem_erase_port.mpr ⟨?_, h.slot_live v hv pid q hs⟩
    rintro rfl
    exact h.slot_unattached hv howner hs
  owner_slot := fun q hq => h.owner_slot q (List.mem_of_mem_erase hq)

theorem addPpp {name : String} {e : Nat × Nat} {link : Nat → Option (Option RingRef × Option RingRef)}
    (hname : ∀ a ∈ w.ppps, w.pppName a ≠ name) :
    Attached {w with ppps := w.ppps ++ [w.next], pppName := update w.pppName w.next name,
                     ends := update w.ends w.next e, link := link, next := w.next + 1} where
  __ := h
  ppp_names := names_append h.ppp_names h.ppp_lt hname
  vnf_lt := fun v hv => Nat.lt_succ_of_lt (h.vnf_lt v hv)
  port_lt := fun p hp => Nat.lt_succ_of_lt (h.port_lt p hp)
  ppp_lt := lt_append h.ppp_lt

theorem delPpp {a : Nat} {link : Nat → Option (Option RingRef × Option RingRef)} :
    Attached {w with ppps := w.ppps.erase a, link := link} where
  __ := h
  ppp_names := names_erase h.ppp_names a
  ppp_lt := fun b hb => h.ppp_lt b (List.mem_of_mem_erase hb)

theorem move (hm : Move g w w') : Attached w' := by
  cases hm with
  | addVnf name nPorts hname => exact h.addVnf hname
  | delVnf v hv hnull => exact h.delVnf hnull
  | attach v pid p hv hp hempty howner => exact h.attach hv hempty hp howner
  | dettach v pid p hv hp hslot => exact h.dettach hv hslot
  | addPort name link hname hlink => exact h.addPort hname
  | delPort p hp howner hg => exact h.delPort howner
  | addPpp name l r hname hl hr hll hlr hg => exact h.addPpp hname
  | delPpp a ha hl hr => exact h.delPpp

theorem moved (hm : Moved g w w') : Attached w' := by
  rcases hm with rfl | hm
  · exact h
  · exact h.move hm

end Attached

theorem attached_init (nSocket : Nat) (catalog : List (String × VnfClass)) :
    Attached (Nfvi.wiring {nSocket := nSocket, catalog := catalog}) := by
  constructor <;> simp [Nfvi.wiring]

end Susanow.Wiring

namespace Susanow

theorem attached_of_run {Rule : Sys → Label → Prop} {nSocket nLcore : Nat}
    {catalog : List (String × VnfClass)} {ls : List Label} {s : Sys}
    (h : Runs Sys.step Rule (.init nSocket nLcore catalog) ls s) : s.nfvi.wiring.Attached :=
  h.invariant (I := fun s => s.nfvi.wiring.Attached) (Wiring.attached_init nSocket catalog)
    fun s _ _ hI _ hstep => hI.moved (Sys.step_moved .trivial (fun r _ => s.nfvi.admits_trivial r) hstep)

theorem Nfvi.owner_of_slot {n : Nfvi} {v p : Nat} (hatt : n.wiring.Attached) (hv : v ∈ n.vnfs)
    (hp : some p ∈ (n.vnf v).ports) : (n.port p).attachedVnf = some v := by
  obtain ⟨pid, hpid⟩ := List.mem_iff_getElem?.mp hp
  exact hatt.slot_owner v hv pid p hpid

theorem Nfvi.lt_of_slot {n : Nfvi} {v p : Nat} (hatt : n.wiring.Attached) (hv : v ∈ n.vnfs)
    (hp : some p ∈ (n.vnf v).ports) : p < n.next := by
  obtain ⟨pid, hpid⟩ := List.mem_iff_getElem?.mp hp
  exact hatt.port_lt p (hatt.slot_live v hv pid p hpid)

/-- Distinct names in every table, no slot that names a port outside of the table, and
one attachment, stored twice. -/
structure Nfvi.Consistent (n : Nfvi) : Prop where
  vnf_names : (n.vnfs.map fun v => (n.vnf v).name).Nodup
  port_names : (n.ports.map fun p => (n.port p).name).Nodup
  ppp_names : (n.ppps.map fun a => (n.ppp a).name).Nodup
  slot_live : ∀ v ∈ n.vnfs, ∀ pid p : Nat, (n.vnf v).ports[pid]? = some (some p) → p ∈ n.ports
  attached_iff : ∀ p ∈ n.ports, ∀ v ∈ n.vnfs, (n.port p).attachedVnf = some v ↔
    ∃! pid : Nat, (n.vnf v).ports[pid]? = some (some p)
  attached_live : ∀ p ∈ n.ports, ∀ v, (n.port p).attachedVnf = some v → v ∈ n.vnfs
  one_slot : ∀ v ∈ n.vnfs, ∀ w ∈ n.vnfs, ∀ pid qid p : Nat,
    (n.vnf v).ports[pid]? = some (some p) → (n.vnf w).ports[qid]? = some (some p) → v = w ∧ pid = qid

theorem Nfvi.consistent_of_attached {n : Nfvi} (h : n.wiring.Attached) : n.Consistent where
  vnf_names := h.vnf_names
  port_names := h.port_names
  ppp_names := h.ppp_names
  slot_live := h.slot_live
  attached_iff := fun p hp v hv => by
    constructor
    · intro ho
      obtain ⟨-, pid, hs⟩ := h.owner_slot p hp v ho
      exact ⟨pid, hs, fun qid hs' => h.slot_inj v hv qid pid p hs' hs⟩
    · rintro ⟨pid, hs, -⟩
      exact h.slot_owner v hv pid p hs
  attached_live := fun p hp v ho => (h.owner_slot p hp v ho).1
  one_slot := fun v hv w hw pid qid p hs hs' => by
    have hvw := (h.slot_owner v hv pid p hs).symm.trans (h.slot_owner w hw qid p hs')
    cases hvw
    exact ⟨rfl, h.slot_inj v hv pid qid p hs hs'⟩

/-- **Attachment is consistent in every state of every run**: whatever is requested and in
whatever order, and wherever the workers and the block loops stand. -/
theorem consistent_of_run {nSocket nLcore : Nat} {catalog : List (String × VnfClass)}
    {ls : List Label} {s : Sys} (h : Runs Sys.step Always (.init nSocket nLcore catalog) ls s) :
    s.nfvi.Consistent :=
  Nfvi.consistent_of_attached (attached_of_run h)

def pciPort (name : String) : Request :=
  .portPost name (some "pci") (some "0000:00:00.0") (.ok 0)

/-- A VNF of the catalog, with both its ports. -/
def bringUp (cname : String) : List Label :=
  [.request (.vnfPost "v" (some cname) fun _ => (0, 0)), .request (pciPort "a"),
    .request (pciPort "b"), .request (.slotPut "v" 0 (some "a")), .request (.slotPut "v" 1 (some "b"))]

/-- One of the ports is taken away again. -/
def attachRun : List Label := bringUp "l2fwd" ++ [.request (.slotDelete "v" 0)]

theorem consistent_of_attachRun :
    ∃ s, exec Sys.step (.init 1 4 mainCatalog) attachRun = some s ∧ s.nfvi.Consistent := by
  obtain ⟨s, hs⟩ := Option.isSome_iff_exists.mp
    (show (exec Sys.step (.init 1 4 mainCatalog) attachRun).isSome = true by decide +kernel)
  exact ⟨s, hs, consistent_of_run (Runs.of_exec hs)⟩

end Susanow
