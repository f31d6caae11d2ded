import Susanow.Nfvi.Steps

/-! What points to what.

The wiring of an NFVi is its tables, the names, and the pointers between VNFs,
ports and panels; counters, queue tables, masks and threads are left out. A handler
either leaves the wiring alone or makes one of eight moves (`Wiring.Move`), and
nothing else the NFVi does touches it. Invariants of the wiring are then checked
move by move. -/
namespace Susanow

@[ext] structure Wiring where
  vnfs : List Nat
  ports : List Nat
  ppps : List Nat
  next : Nat
  vnfName : Nat → String
  portName : Nat → String
  pppName : Nat → String
  slots : Nat → List (Option Nat)
  owner : Nat → Option Nat
  -- tx and rx of a virt port
  link : Nat → Option (Option RingRef × Option RingRef)
  -- left and right of a panel
  ends : Nat → Nat × Nat

def Nfvi.wiring (n : Nfvi) : Wiring where
  vnfs := n.vnfs
  ports := n.ports
  ppps := n.ppps
  next := n.next
  vnfName := fun v => (n.vnf v).name
  portName := fun p => (n.port p).name
  pppName := fun a => (n.ppp a).name
  slots := fun v => (n.vnf v).ports
  owner := fun p => (n.port p).attachedVnf
  link := fun p => (n.port p).dev.link
  ends := fun a => ((n.ppp a).left, (n.ppp a).right)

namespace Wiring
open Function (update)

/-- Both ends of a new panel `a` get its rings; written left end first. -/
def patchLink (link : Nat → Option (Option RingRef × Option RingRef)) (a l r : Nat) :
    Nat → Option (Option RingRef × Option RingRef) :=
  update (update link l (some (some (.leftEnq a), some (.rightEnq a)))) r
    (some (some (.rightEnq a), some (.leftEnq a)))

def unpatchLink (link : Nat → Option (Option RingRef × Option RingRef)) (l r : Nat) :
    Nat → Option (Option RingRef × Option RingRef) :=
  update (update link l (some (none, none))) r (some (none, none))

/-- What is known of the ports a request deletes or patches, beyond what the code checks. -/
structure Guard where
  del : Nat → Prop
  patch : Nat → Nat → Prop

/-- Nothing is known. -/
def Guard.trivial : Guard := ⟨fun _ => True, fun _ _ => True⟩

/-- The moves, each with what the code has checked when it makes it. -/
inductive Move (g : Guard) : Wiring → Wiring → Prop
  | addVnf (w : Wiring) (name : String) (nPorts : Nat) : (∀ v ∈ w.vnfs, w.vnfName v ≠ name) →
      Move g w {w with vnfs := w.vnfs ++ [w.next], vnfName := update w.vnfName w.next name,
                       slots := update w.slots w.next (List.replicate nPorts none),
                       next := w.next + 1}
  | delVnf (w : Wiring) (v : Nat) : v ∈ w.vnfs → (∀ slot ∈ w.slots v, slot = none) →
      Move g w {w with vnfs := w.vnfs.erase v}
  | attach (w : Wiring) (v pid p : Nat) : v ∈ w.vnfs → p ∈ w.ports →
      (w.slots v)[pid]? = some none → w.owner p = none →
      Move g w {w with slots := update w.slots v ((w.slots v).set pid (some p)),
                       owner := update w.owner p (some v)}
  | dettach (w : Wiring) (v pid p : Nat) : v ∈ w.vnfs → p ∈ w.ports →
      (w.slots v)[pid]? = some (some p) →
      Move g w {w with slots := update w.slots v ((w.slots v).set pid none),
                       owner := update w.owner p none}
  | addPort (w : Wiring) (name : String) (link : Option (Option RingRef × Option RingRef)) :
      (∀ p ∈ w.ports, w.portName p ≠ name) → (link = none ∨ link = some (none, none)) →
      Move g w {w with ports := w.ports ++ [w.next], portName := update w.portName w.next name,
                       owner := update w.owner w.next none, link := update w.link w.next link,
                       next := w.next + 1}
  | delPort (w : Wiring) (p : Nat) : p ∈ w.ports → w.owner p = none → g.del p →
      Move g w {w with ports := w.ports.erase p}
  | addPpp (w : Wiring) (name : String) (l r : Nat) : (∀ a ∈ w.ppps, w.pppName a ≠ name) →
      l ∈ w.ports → r ∈ w.ports → w.link l = some (none, none) → w.link r = some (none, none) →
      g.patch l r →
      Move g w {w with ppps := w.ppps ++ [w.next], pppName := update w.pppName w.next name,
                       ends := update w.ends w.next (l, r), link := patchLink w.link w.next l r,
                       next := w.next + 1}
  | delPpp (w : Wiring) (a : Nat) : a ∈ w.ppps → (w.ends a).1 ∈ w.ports → (w.ends a).2 ∈ w.ports →
      Move g w {w with ppps := w.ppps.erase a, link := unpatchLink w.link (w.ends a).1 (w.ends a).2}

/-- At most one move. -/
def Moved (g : Guard) (w w' : Wiring) : Prop := w' = w ∨ Move g w w'

theorem Moved.refl (g : Guard) (w : Wiring) : Moved g w w := .inl rfl

end Wiring

/-! ### Handlers -/

namespace Nfvi
open Proc (Keeps Within Meets within_bind within_pure within_throw within_ite meets_pure meets_throw meets_bind_ret
  meets_bind_crash)
open Wiring (Guard Move Moved)

theorem allows_wiring (v : Nat) : Allows v fun n n' => n'.wiring = n.wiring where
  block := fun _ _ _ _ _ => Wiring.ext rfl rfl rfl rfl (proj_update_self Vnf.name _ _ _ rfl) rfl rfl
    (proj_update_self Vnf.ports _ _ _ rfl) rfl rfl rfl
  port := fun _ _ _ hf => Wiring.ext rfl rfl rfl rfl rfl
    (proj_update_self VnfPort.name _ _ _ (hf _).1) rfl rfl
    (proj_update_self VnfPort.attachedVnf _ _ _ (hf _).2.1)
    (proj_update_self (fun x : VnfPort => x.dev.link) _ _ _ (congrArg Dev.link (hf _).2.2)) rfl

theorem wiring_setRing (n : Nfvi) (r : RingRef) (x : MaRing Mbuf) : (setRing n r x).wiring = n.wiring := by
  cases r <;> exact Wiring.ext rfl rfl rfl rfl rfl rfl (proj_update_self PatchPanel.name _ _ _ rfl)
    rfl rfl rfl (proj_update_self (fun a : PatchPanel => (a.left, a.right)) _ _ _ rfl)

theorem wiring_setDev (n : Nfvi) (p : Nat) (d : Dev) :
    (n.editPort p (VnfPort.setDev d)).wiring =
      {n.wiring with link := Function.update n.wiring.link p d.link} :=
  Wiring.ext rfl rfl rfl rfl rfl (proj_update_self VnfPort.name _ _ _ rfl) rfl rfl
    (proj_update_self VnfPort.attachedVnf _ _ _ rfl)
    (proj_update (fun x : VnfPort => x.dev.link) _ _ _) rfl

theorem allowsTables_wiring (v : Nat) : AllowsTables v fun n n' => n'.wiring = n.wiring where
  device n i p portId socketId ma ma' _ hdev := by
    have hlink : n.wiring.link p = none := by simp [wiring, hdev, Dev.link]
    rw [wiring_setDev, Dev.link, ← hlink, Function.update_eq_self]
  deq n _ _ _ r _ _ _ := wiring_setRing n r _
  enq n _ _ _ r _ _ _ := wiring_setRing n r _

/-- A call at `n` makes at most one move. -/
def Moves {α : Type} (g : Guard) (p : Proc Nfvi α) (n : Nfvi) : Prop :=
  Meets p n (fun _ n' => Moved g n.wiring n'.wiring) fun n' => Moved g n.wiring n'.wiring

variable {g : Guard}

section Moves
variable {α β : Type} {p : Proc Nfvi α} {f : α → Proc Nfvi β} {n : Nfvi}

theorem moves_of_keeps (h : Keeps wiring p) (n : Nfvi) : Moves g p n :=
  ⟨fun a n' hr => .inl ((h n).1 a n' hr), fun w n' hr => .inl ((h n).2 w n' hr)⟩

theorem moves_of_ret {a : α} {t : Nfvi} (h : p n = .ret a t) (hm : Moved g n.wiring t.wiring) :
    Moves g p n := by
  refine ⟨fun b u hb => ?_, fun w u hw => ?_⟩
  · rw [h] at hb
    cases hb
    exact hm
  · rw [h] at hw
    cases hw

theorem Moves.bind_keeps (hp : Moves g p n) (hf : ∀ a, Keeps wiring (f a)) : Moves g (p >>= f) n := by
  refine Proc.meets_bind hp fun a n' hm => ⟨fun b t hb => ?_, fun w t hw => ?_⟩
  · show Moved g n.wiring t.wiring
    rw [(hf a n').1 b t hb]
    exact hm
  · show Moved g n.wiring t.wiring
    rw [(hf a n').2 w t hw]
    exact hm

theorem keeps_bind_moves' (hp : Keeps wiring p) (hf : ∀ a n', p n = .ret a n' → Moves g (f a) n') :
    Moves g (p >>= f) n :=
  hp.bind (Moved.refl g) hf

theorem keeps_bind_moves (hp : Keeps wiring p) (hf : ∀ a n', n'.wiring = n.wiring → Moves g (f a) n') :
    Moves g (p >>= f) n :=
  hp.bind (Moved.refl g) fun a n' h => hf a n' ((hp n).1 a n' h)

end Moves

/-! Names -/

theorem findVnf_none {n : Nfvi} {name : String} (h : (n.findVnf name).isSome = false) :
    ∀ v ∈ n.vnfs, (n.vnf v).name ≠ name := by
  simpa [findVnf] using h

theorem findPort_none {n : Nfvi} {name : String} (h : (n.findPort name).isSome = false) :
    ∀ p ∈ n.ports, (n.port p).name ≠ name := by
  simpa [findPort] using h

theorem findPpp_none {n : Nfvi} {name : String} (h : (n.findPpp name).isSome = false) :
    ∀ a ∈ n.ppps, (n.ppp a).name ≠ name := by
  simpa [findPpp] using h

/-! The calls that make a move -/

theorem moves_vnfAllocFromCatalog (cname iname : String) (mem : Nat → BitVec 32 × Nat) (n : Nfvi) :
    Moves g (vnfAllocFromCatalog cname iname mem) n := by
  refine Proc.meets_get_bind ?_
  split
  · exact moves_of_keeps (within_pure _) n
  · next hname =>
    split
    · exact moves_of_keeps (within_pure _) n
    · next c hc =>
      refine moves_of_ret (Proc.set_bind _ _ n) (.inr ?_)
      have hmove := Move.addVnf (g := g) n.wiring iname c.2.nPorts (findVnf_none (by simpa using hname))
      convert hmove using 1
      exact Wiring.ext rfl rfl rfl rfl (proj_update Vnf.name _ _ _) rfl rfl
        (proj_update Vnf.ports _ _ _) rfl rfl rfl

theorem moves_delVnf {v : Nat} {n : Nfvi} (h : (n.vnf v).isDeletable = true) : Moves g (delVnf v) n := by
  refine Proc.meets_get_bind ?_
  split
  · next hv =>
    refine moves_of_ret (Proc.set_run _ _) (.inr (Move.delVnf n.wiring v hv ?_))
    simpa [Vnf.isDeletable, wiring] using h
  · exact moves_of_keeps (within_throw _) n

/-- Port `p` in slot `pid` of `v`. -/
def attached (n : Nfvi) (v pid p : Nat) : Nfvi :=
  (n.editVnf v fun x => {x with ports := x.ports.set pid (some p)}).editPort p (VnfPort.attachVnf v)

/-- Slot `pid` of `v` without its port `p`. -/
def dettached (n : Nfvi) (v pid p : Nat) : Nfvi :=
  (n.editPort p VnfPort.dettachVnf).editVnf v fun x => {x with ports := x.ports.set pid none}

theorem attachPort_meets (v pid p : Nat) (n : Nfvi) :
    Meets (attachPort v pid p) n (fun _ n' => n' = n ∨ v ∈ n.vnfs ∧ p ∈ n.ports ∧
      (n.vnf v).ports[pid]? = some none ∧ (n.port p).attachedVnf = none ∧ n' = n.attached v pid p)
      fun n' => n' = n := by
  by_cases hv : v ∈ n.vnfs
  · refine meets_bind_ret (vnfAt_of_mem hv) ?_
    split
    · exact meets_throw rfl
    · exact meets_pure (.inl rfl)
    · next hslot =>
      by_cases hp : p ∈ n.ports
      · refine meets_bind_ret (portAt_of_mem hp) ?_
        split
        · exact meets_pure (.inl rfl)
        · next hown =>
          exact Proc.meets_of_ret rfl (.inr ⟨hv, hp, hslot, by simpa [VnfPort.isAttachedVnf] using hown, rfl⟩)
      · exact meets_bind_crash (portAt_of_not_mem hp)
  · exact meets_bind_crash (vnfAt_of_not_mem hv)

theorem dettachPort_meets (v pid : Nat) (n : Nfvi) :
    Meets (dettachPort v pid) n (fun _ n' => n' = n ∨ ∃ p, v ∈ n.vnfs ∧ p ∈ n.ports ∧
      (n.vnf v).ports[pid]? = some (some p) ∧ n' = n.dettached v pid p) fun n' => n' = n := by
  by_cases hv : v ∈ n.vnfs
  · refine meets_bind_ret (vnfAt_of_mem hv) ?_
    split
    · exact meets_throw rfl
    · exact meets_pure (.inl rfl)
    · next p hslot =>
      by_cases hp : p ∈ n.ports
      · exact meets_bind_ret (portAt_of_mem hp) (Proc.meets_of_ret rfl (.inr ⟨p, hv, hp, hslot, rfl⟩))
      · exact meets_bind_crash (portAt_of_not_mem hp)
  · exact meets_bind_crash (vnfAt_of_not_mem hv)

theorem moves_attachPort (v pid p : Nat) (n : Nfvi) : Moves g (attachPort v pid p) n := by
  have hmeets := attachPort_meets v pid p n
  refine ⟨fun ret n' h => ?_, fun w n' h => .inl (congrArg wiring (hmeets.2 w n' h))⟩
  rcases hmeets.1 ret n' h with rfl | ⟨hv, hp, hslot, hown, rfl⟩
  · exact .inl rfl
  · have hmove := Move.attach (g := g) n.wiring v pid p hv hp hslot hown
    refine .inr ?_
    convert hmove using 1
    exact Wiring.ext rfl rfl rfl rfl (proj_update_self Vnf.name _ _ _ rfl)
      (proj_update_self VnfPort.name _ _ _ rfl) rfl (proj_update Vnf.ports _ _ _)
      (proj_update VnfPort.attachedVnf _ _ _)
      (proj_update_self (fun x : VnfPort => x.dev.link) _ _ _ rfl) rfl

theorem moves_dettachPort (v pid : Nat) (n : Nfvi) : Moves g (dettachPort v pid) n := by
  have hmeets := dettachPort_meets v pid n
  refine ⟨fun ret n' h => ?_, fun w n' h => .inl (congrArg wiring (hmeets.2 w n' h))⟩
  rcases hmeets.1 ret n' h with rfl | ⟨p, hv, hp, hslot, rfl⟩
  · exact .inl rfl
  · have hmove := Move.dettach (g := g) n.wiring v pid p hv hp hslot
    refine .inr ?_
    convert hmove using 1
    exact Wiring.ext rfl rfl rfl rfl (proj_update_self Vnf.name _ _ _ rfl)
      (proj_update_self VnfPort.name _ _ _ rfl) rfl (proj_update Vnf.ports _ _ _)
      (proj_update VnfPort.attachedVnf _ _ _)
      (proj_update_self (fun x : VnfPort => x.dev.link) _ _ _ rfl) rfl

/-- A port as `portPost` appends it: unattached and unpatched. -/
structure Bare (pname : String) (p : VnfPort) : Prop where
  name : p.name = pname
  owner : p.attachedVnf = none
  link : p.dev.link = none ∨ p.dev.link = some (none, none)

theorem bare_configHw {pname : String} {p : VnfPort} (h : Bare pname p) (nrxq ntxq : Nat) :
    Bare pname (p.configHw nrxq ntxq) := by
  obtain ⟨hname, howner, hlink⟩ := h
  unfold VnfPort.configHw
  split
  · exact ⟨hname, howner, .inl rfl⟩
  · next tx rx hdev =>
    rw [hdev] at hlink
    exact ⟨hname, howner, hlink⟩

theorem attachDev_meets (attach : Except String Nat) (n : Nfvi) :
    Meets (attachDev attach) n (fun d n' => n'.wiring = n.wiring ∧ d.link = none)
      fun n' => n'.wiring = n.wiring := by
  unfold attachDev
  split
  · exact meets_throw rfl
  · exact Proc.meets_get_bind
      ⟨fun d n' h => by cases h; exact ⟨rfl, rfl⟩, fun w n' h => by cases h⟩

/-- The branches that attach a device and make a port of it. -/
theorem attachDev_bare {pname : String} {g : Dev → VnfPort}
    (hg : ∀ d : Dev, d.link = none → Bare pname (g d)) (attach : Except String Nat) (n : Nfvi) :
    Meets (attachDev attach >>= fun d => pure (some (g d))) n
      (fun o n' => n'.wiring = n.wiring ∧ ∀ p ∈ o, Bare pname p) fun n' => n'.wiring = n.wiring := by
  refine Proc.meets_bind (attachDev_meets attach n) fun d n' hd => meets_pure ⟨hd.1, ?_⟩
  rintro p ⟨⟩
  exact hg d hd.2

theorem field_then {α : Type} {pname : String} {f : α → Proc Nfvi (Option VnfPort)} {x : Option α}
    {n : Nfvi} (hf : ∀ a n', Meets (f a) n' (fun o t => t.wiring = n'.wiring ∧ ∀ p ∈ o, Bare pname p)
      fun t => t.wiring = n'.wiring) :
    Meets (field x >>= f) n (fun o n' => n'.wiring = n.wiring ∧ ∀ p ∈ o, Bare pname p)
      fun n' => n'.wiring = n.wiring := by
  cases x with
  | none => exact meets_throw rfl
  | some a => exact hf a n

theorem makePort_meets (pname cname : String) (option : Option String) (attach : Except String Nat)
    (n : Nfvi) :
    Meets (makePort pname cname option attach) n
      (fun o n' => n'.wiring = n.wiring ∧ ∀ p ∈ o, Bare pname p) fun n' => n'.wiring = n.wiring := by
  have hplain (d : Dev) (hd : d.link = none) : Bare pname {name := pname, dev := d} :=
    ⟨rfl, rfl, .inl hd⟩
  have hhw (d : Dev) (hd : d.link = none) :
      Bare pname (VnfPort.configHw nrxq ntxq {name := pname, dev := d}) :=
    bare_configHw (hplain d hd) _ _
  unfold makePort
  split_ifs
  · exact field_then fun _ n' => attachDev_bare hplain attach n'
  · exact attachDev_bare hhw attach n
  · exact field_then fun _ n' => attachDev_bare hhw attach n'
  · exact attachDev_bare hhw attach n
  · exact field_then fun _ n' => attachDev_bare hhw attach n'
  · refine meets_pure ⟨rfl, ?_⟩
    rintro p ⟨⟩
    exact bare_configHw (p := {name := pname, dev := .virt none none}) ⟨rfl, rfl, .inr rfl⟩ _ _
  · exact meets_pure ⟨rfl, fun p hp => by cases hp⟩

theorem moves_appendPort {pname : String} {p : VnfPort} (hp : Bare pname p) {n : Nfvi}
    (hname : ∀ q ∈ n.ports, (n.port q).name ≠ pname) : Moves g (appendPort p) n := by
  refine moves_of_ret (Proc.modify_run _ n) (.inr ?_)
  have hmove := Move.addPort (g := g) n.wiring pname p.dev.link hname hp.link
  convert hmove using 1
  refine Wiring.ext rfl rfl rfl rfl rfl ?_ rfl rfl ?_
    (proj_update (fun x : VnfPort => x.dev.link) _ _ _) rfl
  · rw [← hp.name]
    exact proj_update VnfPort.name _ _ _
  · rw [← hp.owner]
    exact proj_update VnfPort.attachedVnf _ _ _

theorem moves_delPort {p : Nat} {n : Nfvi} (h : (n.port p).attachedVnf = none) (hg : g.del p) :
    Moves g (delPort p) n := by
  refine Proc.meets_get_bind ?_
  split
  · next hp =>
    exact moves_of_ret (Proc.set_run _ _) (.inr (Move.delPort n.wiring p hp h hg))
  · exact moves_of_keeps (within_throw _) n

/-! Panels -/

theorem dev_link_virt {n : Nfvi} {p : Nat} {tx rx : Option RingRef} (h : (n.port p).dev = .virt tx rx) :
    n.wiring.link p = some (tx, rx) := by
  simp [wiring, h, Dev.link]

theorem within_virtPatched {R : Nfvi → Nfvi → Prop} [IsPreorder Nfvi R] (p : Nat) : Within R (virtPatched p) := by
  refine within_bind (within_portAt p) fun port => ?_
  split
  · exact within_pure _
  · split
    · exact Proc.within_crash _
    · exact within_pure _

/-- What `patched` has ruled out when a panel is made. -/
theorem virtPatched_ret {p : Nat} {n n' : Nfvi} {b : Option Bool} (h : virtPatched p n = .ret b n')
    (hvirt : n.isVirt p = true) (hb : b ≠ some true) :
    n' = n ∧ p ∈ n.ports ∧ n.wiring.link p = some (none, none) := by
  by_cases hp : p ∈ n.ports
  · rw [virtPatched, Proc.bind_ret (portAt_of_mem hp)] at h
    cases hdev : (n.port p).dev with
    | dpdk portId socketId ma => simp [isVirt, hdev] at hvirt
    | virt tx rx =>
      rw [hdev] at h
      rcases tx with _ | tx <;> rcases rx with _ | rx <;>
        simp only [VnfPort.patched, Option.isSome_none, Option.isSome_some, if_true,
          Bool.false_eq_true, Bool.true_eq_false, if_false] at h <;> cases h
      · exact ⟨rfl, hp, dev_link_virt hdev⟩
      · exact absurd rfl hb
  · rw [virtPatched, Proc.bind_crash (portAt_of_not_mem hp)] at h
    cases h

theorem wiring_addPpp (n : Nfvi) (x : PatchPanel) :
    (n.addPpp x).wiring =
      {n.wiring with ppps := n.ppps ++ [n.next],
                     pppName := Function.update n.wiring.pppName n.next x.name,
                     ends := Function.update n.wiring.ends n.next (x.left, x.right),
                     next := n.next + 1} :=
  Wiring.ext rfl rfl rfl rfl rfl rfl (proj_update PatchPanel.name _ _ _) rfl rfl rfl
    (proj_update (fun a : PatchPanel => (a.left, a.right)) _ _ _)

theorem moves_newPatchPanel {name : String} {r l : Nat} {n : Nfvi} (alloc : Nat → Nat → Bool)
    (mem : Nat → Nat × Nat) (hname : ∀ a ∈ n.ppps, (n.ppp a).name ≠ name) (hl : l ∈ n.ports)
    (hr : r ∈ n.ports) (hll : n.wiring.link l = some (none, none))
    (hlr : n.wiring.link r = some (none, none)) (hg : g.patch l r) : Moves g (newPatchPanel name r l alloc mem) n := by
  refine meets_bind_ret (portAt_of_mem hr) (meets_bind_ret (portAt_of_mem hl) ?_)
  split
  · refine keeps_bind_moves Proc.within_fresh fun leftEnq n₁ h₁ =>
      keeps_bind_moves Proc.within_fresh fun rightEnq n₂ h₂ => ?_
    rw [h₁] at h₂
    have hmove := Move.addPpp (g := g) n₂.wiring name l r (by rw [h₂]; exact hname) (by rw [h₂]; exact hl)
      (by rw [h₂]; exact hr) (by rw [h₂]; exact hll) (by rw [h₂]; exact hlr) hg
    refine Proc.meets_get_bind (moves_of_ret (t := ((n₂.addPpp ⟨name, leftEnq, rightEnq, l, r⟩).editPort l
      (VnfPort.setDev (.virt (some (.leftEnq n₂.next)) (some (.rightEnq n₂.next))))).editPort r
      (VnfPort.setDev (.virt (some (.rightEnq n₂.next)) (some (.leftEnq n₂.next))))) rfl (.inr ?_))
    rw [wiring_setDev, wiring_setDev, wiring_addPpp]
    exact hmove
  · exact moves_of_keeps (within_throw _) n

theorem moves_pppAlloc (iname : String) (r l : Option Nat) (alloc : Nat → Nat → Bool)
    (mem : Nat → Nat × Nat) (n : Nfvi)
    (hg : n.findPpp iname = none → ∀ l' ∈ l, ∀ r' ∈ r, n.wiring.link l' = some (none, none) →
      n.wiring.link r' = some (none, none) → g.patch l' r') :
    Moves g (pppAlloc iname r l alloc mem) n := by
  refine Proc.meets_get_bind ?_
  split
  · exact moves_of_keeps (within_pure _) n
  · next hname =>
    have hfresh := findPpp_none (by simpa using hname)
    split
    · next r l =>
      split
      · next hvirt =>
        refine keeps_bind_moves' (within_virtPatched r) fun br n₁ hr => ?_
        split
        · exact moves_of_keeps (within_pure _) n₁
        · next hbr =>
          obtain ⟨rfl, hmemr, hlr⟩ := virtPatched_ret hr hvirt.1 hbr
          refine keeps_bind_moves' (within_virtPatched l) fun bl n₂ hl => ?_
          split
          · exact moves_of_keeps (within_pure _) n₂
          · next hbl =>
            obtain ⟨rfl, hmeml, hll⟩ := virtPatched_ret hl hvirt.2 hbl
            exact (moves_newPatchPanel alloc mem hfresh hmeml hmemr hll hlr
              (hg (by simpa using hname) l rfl r rfl hll hlr)).bind_keeps
              fun _ => within_pure _
      · exact moves_of_keeps (within_pure _) n
    · exact moves_of_keeps (within_pure _) n

theorem deletePatchPanel_meets (x : PatchPanel) (n : Nfvi) :
    Meets (deletePatchPanel x) n (fun _ n' => x.left ∈ n.ports ∧ x.right ∈ n.ports ∧
      n'.wiring = {n.wiring with link := Wiring.unpatchLink n.wiring.link x.left x.right})
      fun _ => False := by
  by_cases hl : x.left ∈ n.ports
  · refine meets_bind_ret (portAt_of_mem hl) (meets_bind_ret (Proc.modify_run _ n) ?_)
    by_cases hr : x.right ∈ n.ports
    · refine meets_bind_ret (portAt_of_mem hr) (Proc.meets_modify ⟨hl, hr, ?_⟩)
      rw [wiring_setDev, wiring_setDev]
      rfl
    · exact meets_bind_crash (portAt_of_not_mem hr)
  · exact meets_bind_crash (portAt_of_not_mem hl)

theorem moves_delPpp (a : Nat) (n : Nfvi) : Moves g (delPpp a) n := by
  refine Proc.meets_get_bind ?_
  split
  · next ha =>
    refine meets_bind_ret (Proc.set_run _ _) ?_
    have hdel := deletePatchPanel_meets (n.ppp a) {n with ppps := n.ppps.erase a}
    refine ⟨fun u n' h => ?_, fun w n' h => (hdel.2 w n' h).elim⟩
    obtain ⟨hl, hr, hw⟩ := hdel.1 u n' h
    show Moved g n.wiring n'.wiring
    rw [hw]
    exact .inr (Move.delPpp n.wiring a (List.mem_of_mem_take ha) hl hr)
  · exact moves_of_keeps (within_ite (within_throw _) (Proc.within_crash _)) n

/-! The handlers -/

theorem within_no {R : Nfvi → Nfvi → Prop} [IsPreorder Nfvi R] (msg : String) : Within R (no msg) := within_pure _

theorem within_yes {R : Nfvi → Nfvi → Prop} [IsPreorder Nfvi R] (msg : String) : Within R (yes msg) := within_pure _

theorem moves_vnfDelete (iname : String) (n : Nfvi) : Moves g (vnfDelete iname) n := by
  refine Proc.meets_get_bind ?_
  split
  · exact moves_of_keeps (within_no _) n
  · next v hv =>
    split
    · next hdel => exact (moves_delVnf hdel).bind_keeps fun _ => within_yes _
    · exact moves_of_keeps (within_no _) n

theorem moves_slotPut (iname : String) (pid : Int) (pname : Option String) (n : Nfvi) :
    Moves g (slotPut iname pid pname) n := by
  refine Proc.meets_get_bind ?_
  split
  · exact moves_of_keeps (within_no _) n
  · split_ifs
    · exact moves_of_keeps (within_no _) n
    · refine keeps_bind_moves (within_field _) fun pname n' _ => ?_
      split
      · exact moves_of_keeps (within_no _) n'
      · split_ifs
        · exact moves_of_keeps (within_no _) n'
        · exact (moves_attachPort _ _ _ n').bind_keeps fun _ => within_ite (within_no _) (within_yes _)
    · exact moves_of_keeps (within_no _) n

theorem moves_slotDelete (iname : String) (pid : Int) (n : Nfvi) : Moves g (slotDelete iname pid) n := by
  refine Proc.meets_get_bind ?_
  split
  · exact moves_of_keeps (within_no _) n
  · split_ifs
    · exact moves_of_keeps (within_no _) n
    · exact (moves_dettachPort _ _ n).bind_keeps fun _ => within_ite (within_no _) (within_yes _)
    · exact moves_of_keeps (within_no _) n

theorem moves_portPost (pname : String) (cname option : Option String) (attach : Except String Nat)
    (n : Nfvi) : Moves g (portPost pname cname option attach) n := by
  refine Proc.meets_get_bind ?_
  split
  · exact moves_of_keeps (within_no _) n
  · next hname =>
    have hfresh : ∀ q ∈ n.wiring.ports, n.wiring.portName q ≠ pname :=
      findPort_none (by simpa using hname)
    refine keeps_bind_moves (within_field _) fun cname n₁ h₁ => ?_
    refine Proc.meets_catching
      (Proc.meets_bind (makePort_meets pname cname option attach n₁) fun o n₂ h₂ => ?_)
      fun w n₂ h₂ => meets_pure (.inl h₂)
    cases o with
    | none => exact meets_pure (.inl h₂.1)
    | some p =>
      rw [← h₂.1.trans h₁] at hfresh
      have hmoves := moves_appendPort (g := g) (h₂.2 p rfl) hfresh
      refine meets_bind_ret (Proc.modify_run _ n₂) (meets_pure ?_)
      rw [← h₂.1]
      exact hmoves.1 () _ rfl

theorem moves_portDelete {pname : String} {n : Nfvi}
    (hg : ∀ p, n.findPort pname = some p → (n.port p).attachedVnf = none → g.del p) :
    Moves g (portDelete pname) n := by
  refine Proc.meets_get_bind ?_
  split
  · exact moves_of_keeps (within_no _) n
  · next p hp =>
    split_ifs with howner
    · exact moves_of_keeps (within_no _) n
    · have hnone : (n.port p).attachedVnf = none := by
        simpa [VnfPort.isAttachedVnf] using howner
      exact (moves_delPort hnone (hg p hp hnone)).bind_keeps fun _ => within_yes _

theorem within_coremaskIsValid {R : Nfvi → Nfvi → Prop} [IsPreorder Nfvi R] (th : Native Task)
    (coremask : BitVec 64) : Within R (coremaskIsValid th coremask) := by
  have hrounds (left i : Nat) : Within R (coremaskRounds th coremask i left) := by
    induction left generalizing i with
    | zero => exact within_pure _
    | succ left ih =>
      exact within_ite (Proc.within_crash _) (within_ite (within_ite (ih _) (within_pure _)) (ih _))
  exact hrounds _ _

/-- A coremask is put to a VNF that was found and does not run. -/
theorem coremaskPut_within {R : Nfvi → Nfvi → Prop} [IsPreorder Nfvi R] (th : Native Task) {iname : String}
    (blockId : Int) (coremask : Option (BitVec 32)) {n : Nfvi}
    (h : ∀ v, n.findVnf iname = some v → (n.vnf v).isRunning = false → ∀ bid mask, Within R (setCoremask v bid mask)) :
    Meets (coremaskPut th iname blockId coremask) n (fun _ => R n) (R n) := by
  refine Proc.meets_get_bind ?_
  split
  · exact within_no _ n
  · next v hv =>
    split_ifs with hrun hbid
    · exact within_no _ n
    · exact within_throw _ n
    · refine within_bind (within_blockAt v _) (fun b => within_ite (within_no _) ?_) n
      refine within_bind (within_field _) fun coremask => within_bind (within_coremaskIsValid th _) fun valid => ?_
      refine within_ite (within_bind ?_ fun _ => within_ite (within_no _) (within_yes _)) (within_no _)
      exact h v hv (by simpa using hrun) _ _

theorem resetPut_within {R : Nfvi → Nfvi → Prop} [IsPreorder Nfvi R] {iname : String} {n : Nfvi}
    (h : ∀ v, n.findVnf iname = some v → (n.vnf v).isRunning = false → Within R (reset v)) :
    Meets (resetPut iname) n (fun _ => R n) (R n) := by
  refine Proc.meets_get_bind ?_
  split
  · exact within_no _ n
  · next v hv =>
    split_ifs with hrun
    · exact within_no _ n
    · exact within_bind (h v hv (by simpa using hrun)) (fun _ => within_ite (within_no _) (within_yes _)) n

theorem keeps_deploy (v : Nat) : Keeps wiring (deploy v) :=
  within_bind ((allowsTables_wiring v).deployPorts) fun _ => within_ite (within_pure _) (within_pure _)

theorem keeps_deployPut (iname : String) : Keeps wiring (deployPut iname) := by
  refine within_bind Proc.within_get fun n => ?_
  split
  · exact within_no _
  · exact within_ite (within_no _) (keeps_deploy _)

theorem within_undeployPut {R : Nfvi → Nfvi → Prop} [IsPreorder Nfvi R] (iname : String) :
    Within R (undeployPut iname) := by
  refine within_bind Proc.within_get fun n => ?_
  split
  · exact within_no _
  · exact within_ite (within_pure _) (within_no _)

/-- The two ports a `POST` of a panel would patch are known to be such as `g` says. -/
def admitsPanel (g : Guard) (n : Nfvi) (name : String) (right left : Option String) : Prop :=
  n.findPpp name = none → ∀ rightName ∈ right, ∀ leftName ∈ left,
    ∀ l ∈ n.findPort leftName, ∀ r ∈ n.findPort rightName, n.wiring.link l = some (none, none) →
      n.wiring.link r = some (none, none) → g.patch l r

theorem moves_pppPost {name : String} {right left : Option String} (alloc : Nat → Nat → Bool)
    (mem : Nat → Nat × Nat) {n : Nfvi} (hg : admitsPanel g n name right left) :
    Moves g (pppPost name right left alloc mem) n := by
  refine Proc.meets_get_bind ?_
  split
  · exact moves_of_keeps (within_no _) n
  · cases right with
    | none => exact moves_of_keeps (within_throw _) n
    | some rightName =>
      cases left with
      | none => exact moves_of_keeps (within_throw _) n
      | some leftName =>
        exact (moves_pppAlloc _ _ _ _ _ n fun hname l hl r hr =>
          hg hname rightName rfl leftName rfl l hl r hr).bind_keeps fun _ =>
            within_ite (within_yes _) (within_no _)

theorem within_endpointFree {R : Nfvi → Nfvi → Prop} [IsPreorder Nfvi R] (p : Nat) : Within R (endpointFree p) := by
  refine within_bind (within_portAt p) fun port => ?_
  split
  · exact within_pure _
  · exact within_bind (within_vnfAt _) fun _ => within_pure _

theorem moves_pppDelete (name : String) (n : Nfvi) : Moves g (pppDelete name) n := by
  refine Proc.meets_get_bind ?_
  split
  · exact moves_of_keeps (within_no _) n
  · refine keeps_bind_moves (within_endpointFree _) fun _ n₁ _ => ?_
    split
    · refine keeps_bind_moves (within_endpointFree _) fun _ n₂ _ => ?_
      split
      · exact (moves_delPpp _ n₂).bind_keeps fun _ => within_yes _
      · exact moves_of_keeps (within_no _) n₂
    · exact moves_of_keeps (within_no _) n₁

/-- Whatever port the request deletes or patches, `g` knows it. -/
def admits (g : Guard) (n : Nfvi) : Request → Prop
  | .portDelete pname => ∀ p ∈ n.findPort pname, (n.port p).attachedVnf = none → g.del p
  | .pppPost name right left _ _ => admitsPanel g n name right left
  | _ => True

theorem admits_trivial (n : Nfvi) (r : Request) : admits .trivial n r := by
  unfold admits
  split
  · exact fun _ _ _ => trivial
  · exact fun _ _ _ _ _ _ _ _ _ _ _ => trivial
  · trivial

/-- **A handler makes at most one move**, whether it replies or throws. -/
theorem moves_handle (th : Native Task) {r : Request} {n : Nfvi} (hg : admits g n r) :
    Moves g (handle th r) n := by
  cases r with
  | vnfPost iname cname mem =>
    exact keeps_bind_moves (within_field _) fun cname n' _ =>
      (moves_vnfAllocFromCatalog cname iname mem n').bind_keeps fun _ => within_ite (within_yes _) (within_no _)
  | vnfDelete iname => exact moves_vnfDelete iname n
  | slotPut iname pid pname => exact moves_slotPut iname pid pname n
  | slotDelete iname pid => exact moves_slotDelete iname pid n
  | portPost pname cname option attach => exact moves_portPost pname cname option attach n
  | portDelete pname => exact moves_portDelete fun p hp => hg p hp
  | coremaskPut iname blockId coremask =>
    exact moves_of_keeps (fun n => coremaskPut_within th _ _ fun v _ _ => (allows_wiring v).own.setCoremask) n
  | resetPut iname => exact moves_of_keeps (fun n => resetPut_within fun v _ _ => (allows_wiring v).own.reset) n
  | deployPut iname => exact moves_of_keeps (keeps_deployPut _) n
  | undeployPut iname => exact moves_of_keeps (within_undeployPut _) n
  | pppPost name right left alloc mem => exact moves_pppPost alloc mem hg
  | pppDelete name => exact moves_pppDelete name n

theorem wiring_editBlock (n : Nfvi) (v bid : Nat) (f : Block → Block) :
    (n.editBlock v bid f).wiring = n.wiring :=
  Wiring.ext rfl rfl rfl rfl (proj_update_self Vnf.name _ _ _ rfl) rfl rfl
    (proj_update_self Vnf.ports _ _ _ rfl) rfl rfl rfl

end Nfvi

namespace Sys
open Nfvi (wiring_editBlock)
open Wiring (Guard Moved)

theorem keeps_invoke (c : Call) : Proc.Keeps Nfvi.wiring (invoke c) := by
  cases c with
  | reset v => exact Proc.within_bind (Nfvi.allows_wiring v).own.reset fun _ => Proc.within_pure _
  | setCoremask v bid cmask =>
    exact Proc.within_bind ((Nfvi.allows_wiring v).own.setCoremask _ _) fun _ => Proc.within_pure _
  | deploy v => exact Nfvi.keeps_deploy v
  | undeploy v => exact Proc.within_bind (Nfvi.within_vnfAt v) fun _ => Proc.within_pure _

theorem ctl_wiring {s t : Sys} (h : Ctl s t) : t.nfvi.wiring = s.nfvi.wiring := by
  cases h with
  | launch => exact (wiring_editBlock _ _ _ _).trans (by simp)
  | store => exact wiring_editBlock _ _ _ _
  | join => rfl
  | _ => simp

theorem wrk_wiring {s t : Sys} {l : Nat} (h : Wrk s l t) : t.nfvi.wiring = s.nfvi.wiring := by
  cases h with
  | enter => exact wiring_editBlock _ _ _ _
  | _ => rfl

/-- **A step of the NFVi makes at most one move of its wiring.** -/
theorem step_moved {s t : Sys} {l : Label} (g : Guard)
    (hg : ∀ r, l = .request r → Nfvi.admits g s.nfvi r) (h : s.step l = some t) :
    Moved g s.nfvi.wiring t.nfvi.wiring := by
  cases l with
  | request r =>
    have hmoves := Nfvi.moves_handle s.native (hg r rfl)
    obtain ⟨-, ⟨nx, n, hp, rfl⟩ | ⟨w, n, hp, rfl⟩⟩ := serve_some h
    · exact hmoves.1 nx n hp
    · exact hmoves.2 w n hp
  | call c =>
    obtain ⟨-, ⟨nx, n, hp, rfl⟩ | ⟨w, n, hp, rfl⟩⟩ := serve_some h
    · exact .inl ((keeps_invoke c s.nfvi).1 nx n hp)
    · exact .inl ((keeps_invoke c s.nfvi).2 w n hp)
  | ctl => exact .inl (ctl_wiring (ctl_some h))
  | wrk l => exact .inl (wrk_wiring (wrk_some h))

end Sys

end Susanow
