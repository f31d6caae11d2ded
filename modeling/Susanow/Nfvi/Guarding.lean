import Susanow.Nfvi.Books
import Susanow.Nfvi.Deleting
import Susanow.Nfvi.Tables

/-! What is never written under a worker.

A worker works with the slots of its VNF, with its block's mask and vcores, with the
accessors of the ports it polls and with the rings of their panels. Every request that
writes one of these has asked `is_running` of that very VNF, and is refused if every
flag is set: `Undisturbed` is what is left alone, and a gate that is shut leaves it so. -/
namespace Susanow

/-- What the workers of a block read of it. -/
def Block.layout (b : Block) : BitVec 32 × List Vcore := (b.coremask, b.vcores)

namespace Nfvi
open Proc (Within Meets within_bind within_pure within_throw within_crash within_ite meets_pure meets_throw
  meets_bind_ret meets_bind_crash)

/-- A port of `v` is an end of the panel. -/
def OnPanel (n : Nfvi) (v a : Nat) : Prop :=
  some (n.ppp a).left ∈ (n.vnf v).ports ∨ some (n.ppp a).right ∈ (n.vnf v).ports

instance (n : Nfvi) (v a : Nat) : Decidable (n.OnPanel v a) := inferInstanceAs (Decidable (_ ∨ _))

/-- What the workers of `v` read is what it was. -/
structure Undisturbed (v : Nat) (n n' : Nfvi) : Prop where
  slots : (n'.vnf v).ports = (n.vnf v).ports
  blocks : (n'.vnf v).blocks.map Block.layout = (n.vnf v).blocks.map Block.layout
  tables : ∀ p, some p ∈ (n.vnf v).ports → n'.portTables p = n.portTables p
  panels : ∀ a ∈ n.ppps, n.OnPanel v a → a ∈ n'.ppps

/-- The VNFs a panel's delete asks, by the ports at its ends. -/
def panelGate (n : Nfvi) (r : Request) (v : Nat) : Prop :=
  match r with
  | .pppDelete name => ∃ a ∈ n.findPpp name,
      (n.port (n.ppp a).left).attachedVnf = some v ∨ (n.port (n.ppp a).right).attachedVnf = some v
  | _ => False

/-- The request asks `is_running` of `v` before it writes anything. -/
def Asks (n : Nfvi) (r : Request) (v : Nat) : Prop :=
  n.slotGate r = some v ∨ n.blockGate r = some v ∨ n.deployGate r = some v ∨ n.panelGate r v

instance (n : Nfvi) (r : Request) (v : Nat) : Decidable (n.panelGate r v) := by
  unfold panelGate
  split <;> infer_instance

instance (n : Nfvi) (r : Request) (v : Nat) : Decidable (n.Asks r v) := by
  unfold Asks
  infer_instance

/-! ### Accessors and panels -/

/-- Accessors are what they were, and no panel is gone. -/
structure Furnished (n n' : Nfvi) : Prop where
  tables : ∀ p, n'.portTables p = n.portTables p
  panels : ∀ a ∈ n.ppps, a ∈ n'.ppps

instance : IsPreorder Nfvi Furnished where
  refl _ := ⟨fun _ => rfl, fun _ => id⟩
  trans _ _ _ h h' := ⟨fun p => (h'.tables p).trans (h.tables p), fun a ha => h'.panels a (h.panels a ha)⟩

theorem ring_congr {n n' : Nfvi} (hppp : n'.ppp = n.ppp) (r : RingRef) : n'.ring r = n.ring r := by
  cases r <;> simp only [ring, hppp]

theorem Untouched.portTables {n n' : Nfvi} (h : Untouched n n') {p : Nat} (hp : p < n.next) :
    n'.portTables p = n.portTables p :=
  portTables_congr (h.dev p hp) (fun _ r _ => by rw [ring_congr h.ppp]) fun r _ _ => by rw [ring_congr h.ppp]

theorem furnished_pppAlloc (iname : String) (r l : Option Nat) (alloc : Nat → Nat → Bool) (mem : Nat → Nat × Nat)
    {n : Nfvi} (hlinked : n.wiring.Linked) :
    Meets (pppAlloc iname r l alloc mem) n (fun _ => Furnished n) (Furnished n) := by
  have hsame {α : Type} (a : α) : Meets (pure a : Proc Nfvi α) n (fun _ => Furnished n) (Furnished n) :=
    within_pure a n
  have hbare {p : Nat} (hvirt : n.isVirt p = true) {b : Option Bool} {n' : Nfvi} (h : virtPatched p n = .ret b n')
      (hb : b ≠ some true) : n' = n ∧ (n.port p).dev = .virt none none := by
    obtain ⟨rfl, -, hlink⟩ := virtPatched_ret h hvirt hb
    refine ⟨rfl, ?_⟩
    cases hdev : (n'.port p).dev with
    | dpdk => simp [isVirt, hdev] at hvirt
    | virt tx rx =>
      rw [dev_link_virt hdev] at hlink
      cases hlink
      rfl
  refine Proc.meets_get_bind ?_
  split
  · exact hsame false
  · split
    · next r l =>
      split
      · next hvirt =>
        refine Proc.meets_bind_of_ret (within_virtPatched r n).2 fun br n₁ hr => ?_
        split
        · exact meets_pure ((within_virtPatched r n).1 br n₁ hr)
        · next hbr =>
          obtain ⟨rfl, hdevr⟩ := hbare hvirt.1 hr hbr
          refine Proc.meets_bind_of_ret (within_virtPatched l n₁).2 fun bl n₂ hl => ?_
          split
          · exact meets_pure ((within_virtPatched l n₁).1 bl n₂ hl)
          · next hbl =>
            obtain ⟨rfl, hdevl⟩ := hbare hvirt.2 hl hbl
            have hnew := newPatchPanel_tables iname alloc mem hlinked hdevl hdevr
            refine Proc.meets_bind ⟨fun _ n' h => hnew.1 _ n' h, fun w n' h => ?_⟩ fun _ n' h => meets_pure ⟨h.1, h.2⟩
            rw [hnew.2 w n' h]
            exact refl_of Furnished n₂
      · exact hsame false
    · exact hsame false

theorem furnished_pppPost (name : String) (right left : Option String) (alloc : Nat → Nat → Bool)
    (mem : Nat → Nat × Nat) {n : Nfvi} (hlinked : n.wiring.Linked) :
    Meets (pppPost name right left alloc mem) n (fun _ => Furnished n) (Furnished n) := by
  refine Proc.meets_get_bind ?_
  split
  · exact within_no _ n
  · cases right with
    | none => exact within_throw _ n
    | some rightName =>
      cases left with
      | none => exact within_throw _ n
      | some leftName =>
        refine meets_bind_ret rfl (meets_bind_ret rfl ?_)
        exact Proc.meets_bind_within (furnished_pppAlloc _ _ _ _ _ hlinked) fun _ =>
          within_ite (within_yes _) (within_no _)

/-- An endpoint is free when the VNF it is attached to does not run. -/
theorem endpointFree_ret {p : Nat} {n n' : Nfvi} {free : Bool} (h : endpointFree p n = .ret free n') :
    n' = n ∧ (free = true → ∀ v, (n.port p).attachedVnf = some v → (n.vnf v).isRunning = false) := by
  by_cases hp : p ∈ n.ports
  · rw [endpointFree, Proc.bind_ret (portAt_of_mem hp)] at h
    cases howner : (n.port p).attachedVnf with
    | none =>
      rw [howner] at h
      cases h
      exact ⟨rfl, nofun⟩
    | some w =>
      simp only [howner] at h
      by_cases hw : w ∈ n.vnfs
      · rw [Proc.bind_ret (vnfAt_of_mem hw)] at h
        cases h
        refine ⟨rfl, fun hfree v hv => ?_⟩
        cases hv
        simpa using hfree
      · rw [Proc.bind_crash (vnfAt_of_not_mem hw)] at h
        cases h
  · rw [endpointFree, Proc.bind_crash (portAt_of_not_mem hp)] at h
    cases h

/-- The panel is gone from the table and its two ends are bare; or it was not found. -/
theorem delPpp_meets (a : Nat) (n : Nfvi) :
    Meets (delPpp a) n (fun _ n' => n'.ppps = n.ppps.erase a ∧ n'.ppp = n.ppp ∧
        ∀ p, p ≠ (n.ppp a).left → p ≠ (n.ppp a).right → n'.port p = n.port p)
      fun n' => n' = n := by
  refine Proc.meets_get_bind ?_
  split
  · refine meets_bind_ret (Proc.set_run _ _) ?_
    have hdel := deletePatchPanel_meets (n.ppp a) {n with ppps := n.ppps.erase a}
    refine ⟨fun u n' h => ?_, fun w n' h => (hdel.2 w n' h).elim⟩
    obtain ⟨hl, hr⟩ := ports_of_deletePatchPanel h
    rw [deletePatchPanel_run hl hr] at h
    cases h
    exact ⟨rfl, rfl, fun p hpl hpr => by simp [editPort, hpl, hpr]⟩
  · split
    · exact meets_throw rfl
    · exact Proc.meets_crash

/-! ### Behind a shut gate -/

/-- The accessors of the ports of `v` are what they were, and their panels are there. -/
structure Supplied (v : Nat) (n n' : Nfvi) : Prop where
  tables : ∀ p, some p ∈ (n.vnf v).ports → n'.portTables p = n.portTables p
  panels : ∀ a ∈ n.ppps, n.OnPanel v a → a ∈ n'.ppps

theorem Furnished.supplied {n n' : Nfvi} (h : Furnished n n') (v : Nat) : Supplied v n n' :=
  ⟨fun p _ => h.tables p, fun a ha _ => h.panels a ha⟩

theorem Supplied.rfl {n : Nfvi} {v : Nat} : Supplied v n n := (refl_of Furnished n).supplied v

section Shut
variable {n n' : Nfvi} {v : Nat} (hatt : n.wiring.Attached) (hv : v ∈ n.vnfs)
include hatt hv

theorem Untouched.supplied (h : Untouched n n') : Supplied v n n' :=
  ⟨fun _ hp => h.portTables (lt_of_slot hatt hv hp), fun _ ha _ => h.ppps ▸ ha⟩

/-- A deploy writes the accessors of its own VNF's ports. -/
theorem supplied_deploy (hlinked : n.wiring.Linked) {w : Nat} (hw : w ∈ n.vnfs) (hne : w ≠ v) :
    Meets (deploy w) n (fun _ => Supplied v n) (Supplied v n) := by
  have hspares {n' : Nfvi} (h : Spares w n n') : Supplied v n n' := by
    refine ⟨fun p hp => h.tables hlinked p fun hpw => hne ?_, fun a ha _ => ?_⟩
    · have howner := owner_of_slot hatt hw hpw
      rw [owner_of_slot hatt hv hp] at howner
      exact (Option.some.inj howner).symm
    · have hppps : n'.ppps = n.ppps := congrArg Wiring.ppps h.wiring
      rwa [hppps]
  exact ⟨fun nx n' h => hspares ((deploy_spares w n).1 nx n' h), fun x n' h => hspares ((deploy_spares w n).2 x n' h)⟩

theorem supplied_pppDelete {name : String}
    (hshut : n.panelGate (.pppDelete name) v → (n.vnf v).isRunning = true) :
    Meets (pppDelete name) n (fun _ => Supplied v n) (Supplied v n) := by
  refine Proc.meets_get_bind ?_
  split
  · exact meets_pure .rfl
  · next a ha =>
    refine Proc.meets_bind_of_ret (fun x n' h => ?_) fun freeL n₁ hl => ?_
    · rw [(within_endpointFree (R := fun n n' => n' = n) _ n).2 x n' h]
      exact .rfl
    obtain ⟨rfl, hfreeL⟩ := endpointFree_ret hl
    split
    · next hfl =>
      refine Proc.meets_bind_of_ret (fun x n' h => ?_) fun freeR n₂ hr => ?_
      · rw [(within_endpointFree (R := fun n n' => n' = n) _ n₁).2 x n' h]
        exact .rfl
      obtain ⟨rfl, hfreeR⟩ := endpointFree_ret hr
      split
      · next hfr =>
        -- a slot's port at an end would have had the gate asked, and found it shut
        have hleft : some (n₂.ppp a).left ∉ (n₂.vnf v).ports := fun hp => by
          have howner := owner_of_slot hatt hv hp
          cases (hfreeL hfl v howner).symm.trans (hshut ⟨a, ha, .inl howner⟩)
        have hright : some (n₂.ppp a).right ∉ (n₂.vnf v).ports := fun hp => by
          have howner := owner_of_slot hatt hv hp
          cases (hfreeR hfr v howner).symm.trans (hshut ⟨a, ha, .inr howner⟩)
        refine Proc.meets_bind (Q := fun _ => Supplied v n₂) ⟨fun u n' h => ?_, fun x n' h => ?_⟩
          fun _ n' h => meets_pure h
        · obtain ⟨hppps, hppp, hport⟩ := (delPpp_meets a n₂).1 u n' h
          refine ⟨fun p hp => portTables_congr ?_ (fun _ r _ => by rw [ring_congr hppp])
            fun r _ _ => by rw [ring_congr hppp], fun b hb hon => ?_⟩
          · rw [hport p (fun heq => hleft (heq ▸ hp)) fun heq => hright (heq ▸ hp)]
          · rw [hppps]
            refine (List.mem_erase_of_ne ?_).mpr hb
            rintro rfl
            exact hon.elim hleft hright
        · rw [(delPpp_meets a n₂).2 x n' h]
          exact .rfl
      · exact meets_pure .rfl
    · exact meets_pure .rfl

theorem supplied_handle (hlinked : n.wiring.Linked) (th : Native Task) {r : Request}
    (hshut : n.Asks r v → (n.vnf v).isRunning = true) :
    Meets (handle th r) n (fun _ => Supplied v n) (Supplied v n) := by
  have hkept := kept_handle th r n
  cases r with
  | deployPut iname =>
    refine Proc.meets_get_bind ?_
    split
    · exact meets_pure .rfl
    · next w hw =>
      split
      · exact meets_pure .rfl
      · next hrun =>
        refine supplied_deploy hatt hv hlinked (List.mem_of_find?_eq_some hw) ?_
        rintro rfl
        exact hrun (hshut (.inr (.inr (.inl hw))))
  | pppPost name right left alloc mem =>
    have h := furnished_pppPost name right left alloc mem hlinked
    exact ⟨fun nx n' hp => (h.1 nx n' hp).supplied v, fun w n' hp => (h.2 w n' hp).supplied v⟩
  | pppDelete name => exact supplied_pppDelete hatt hv fun h => hshut (.inr (.inr (.inr h)))
  | _ =>
    exact ⟨fun nx n' hp => ((hkept.1 nx n' hp).tables.resolve_left id).supplied hatt hv,
      fun w n' hp => ((hkept.2 w n' hp).tables.resolve_left id).supplied hatt hv⟩

/-- **A gate that is shut protects its VNF.** Whatever a request does, it writes nothing the
workers of `v` read, unless it has asked for `v` and `v` does not run. -/
theorem undisturbed_handle (hlinked : n.wiring.Linked) (th : Native Task) {r : Request}
    (hshut : n.Asks r v → (n.vnf v).isRunning = true) :
    Meets (handle th r) n (fun _ => Undisturbed v n) (Undisturbed v n) := by
  have hopen {gate : Option Nat} (hasks : gate = some v → n.Asks r v) : ¬n.Open gate v := by
    rintro ⟨hgate, hrun⟩
    cases hrun.symm.trans (hshut (hasks hgate))
  have hold : ¬n.next ≤ v := Nat.not_le.mpr (hatt.vnf_lt v hv)
  have hjoin {n' : Nfvi} (hkept : Kept (n.Open (n.slotGate r)) (n.Open (n.blockGate r)) (writesTables r) n n')
      (hsup : Supplied v n n') : Undisturbed v n n' := by
    refine ⟨(hkept.slots v).resolve_right (not_or_intro (hopen .inl) hold), ?_, hsup.tables, hsup.panels⟩
    rcases hkept.blocks v with heq | hok | ⟨hnew, -⟩
    · rw [heq]
    · exact absurd hok (hopen fun h => .inr (.inl h))
    · exact absurd hnew hold
  have hkept := kept_handle th r n
  have hsup := supplied_handle hatt hv hlinked th hshut
  exact ⟨fun nx n' hp => hjoin (hkept.1 nx n' hp) (hsup.1 nx n' hp),
    fun w n' hp => hjoin (hkept.2 w n' hp) (hsup.2 w n' hp)⟩

end Shut

theorem undisturbed_editBlock (n : Nfvi) (v w bid : Nat) {f : Block → Block}
    (hf : ∀ b, (f b).layout = b.layout) : Undisturbed v n (n.editBlock w bid f) := by
  refine ⟨?_, ?_, fun _ _ => rfl, fun _ ha _ => ha⟩
  · by_cases hv : v = w
    · subst hv
      simp [editBlock, editVnf]
    · exact congrArg Vnf.ports (Function.update_of_ne hv _ _)
  · apply List.ext_getElem?
    intro i
    simp only [List.getElem?_map]
    show ((n.editBlock w bid f).block? v i).map _ = (n.block? v i).map _
    rw [block?_editBlock]
    split
    · cases n.block? v i <;> simp [hf]
    · rfl

theorem Undisturbed.of_eq {n n' : Nfvi} (h : n' = n) (v : Nat) : Undisturbed v n n' := by
  subst h
  exact ⟨rfl, rfl, fun _ _ => rfl, fun _ ha _ => ha⟩

end Nfvi

namespace Sys
open Nfvi (Undisturbed)

/-- A request comes for a VNF when every flag of it is set, or when all its threads have been
joined; there are no other calls than requests. -/
def guardRule (s : Sys) : Label → Prop
  | .request r => ∀ v ∈ s.nfvi.vnfs, s.nfvi.Asks r v → (s.nfvi.vnf v).isRunning = true ∨ s.Settled v
  | .call _ => False
  | _ => True

instance (s : Sys) : (l : Label) → Decidable (guardRule s l)
  | .request r => inferInstanceAs (Decidable (∀ v ∈ s.nfvi.vnfs, s.nfvi.Asks r v → _))
  | .call _ => inferInstanceAs (Decidable False)
  | .ctl => inferInstanceAs (Decidable True)
  | .wrk _ => inferInstanceAs (Decidable True)

section Step
variable {s t : Sys}

theorem undisturbed_ctl (hs : Ctl s t) (v : Nat) : Undisturbed v s.nfvi t.nfvi :=
  hs.nfvi (P := Undisturbed v s.nfvi) (.of_eq rfl v)
    (fun w bid i l => Nfvi.undisturbed_editBlock s.nfvi v w bid (f := setTid i l) fun _ => rfl)
    fun w bid running => Nfvi.undisturbed_editBlock s.nfvi v w bid (f := setRunning running) fun _ => rfl

theorem undisturbed_wrk {l : Nat} (hs : Wrk s l t) (v : Nat) : Undisturbed v s.nfvi t.nfvi :=
  hs.nfvi (P := Undisturbed v s.nfvi) (.of_eq rfl v)
    fun w bid running => Nfvi.undisturbed_editBlock s.nfvi v w bid (f := setRunning running) fun _ => rfl

end Step

/-- **What a worker works with is left alone until it is joined**: as long as every request finds
the VNF it asks for with all its flags set, or with no thread left. -/
theorem undisturbed_of_run {nSocket nLcore : Nat} {catalog : List (String × VnfClass)} {ls : List Label}
    {s t : Sys} {l : Label} (h : Runs step guardRule (.init nSocket nLcore catalog) ls s) (hrule : guardRule s l)
    (hs : s.step l = some t) {v bid k : Nat} (hv : v ∈ s.nfvi.vnfs) (hun : s.Unjoined v bid k) :
    Undisturbed v s.nfvi t.nfvi := by
  obtain ⟨hatt, hlinked, hlisted⟩ := h.invariant
    (I := fun s => s.nfvi.wiring.Attached ∧ s.nfvi.wiring.Linked ∧ s.Listed)
    ⟨Wiring.attached_init nSocket catalog, Wiring.linked_init nSocket catalog, listed_init nSocket nLcore catalog⟩
    fun s l t ⟨hatt, hlinked, hlisted⟩ _ hs => by
      have hmoved := step_moved .trivial (fun r _ => Nfvi.admits_trivial _ r) hs
      exact ⟨hatt.moved hmoved, hlinked.moved hmoved, hlisted.step hs⟩
  cases l with
  | request r =>
    have hkept := Nfvi.undisturbed_handle hatt hv hlinked s.native (r := r) fun hasks =>
      (hrule v hv hasks).resolve_right fun hset => hset.none_unjoined hlisted bid k hun
    obtain ⟨-, ⟨nx, n, hp, rfl⟩ | ⟨w, n, hp, rfl⟩⟩ := serve_some hs
    · exact hkept.1 nx n hp
    · exact hkept.2 w n hp
  | call c => exact hrule.elim
  | ctl => exact undisturbed_ctl (ctl_some hs) v
  | wrk j => exact undisturbed_wrk (wrk_some hs) v

/-- A worker of `l2fwd` is launched; its thread has not started. -/
def launchedRun : List Label := deployRun "l2fwd" [0x4] ++ [.ctl, .ctl, .ctl]

/-- It has stored the flag. -/
def runningRun : List Label := launchedRun ++ [.wrk 2, .wrk 2]

theorem undisturbed_of_runningRun :
    ∃ s t, exec step (.init 1 4 mainCatalog) runningRun = some s ∧ s.step (.request (.resetPut "v")) = some t ∧
      s.Unjoined 0 0 2 ∧ Undisturbed 0 s.nfvi t.nfvi := by
  obtain ⟨s, hs, hf⟩ := Option.map_eq_some_iff.mp
    (show (exec step (.init 1 4 mainCatalog) runningRun).map (fun s => (s.nfvi.vnfs, (s.native.lcore 2).launched,
        (s.nfvi.vnf 0).isRunning, (s.step (.request (.resetPut "v"))).isSome)) =
      some ([0], some (.block 0 0), true, true) by decide +kernel)
  simp only [Prod.mk.injEq] at hf
  obtain ⟨hvnfs, hun, hrun, hstep⟩ := hf
  obtain ⟨t, ht⟩ := Option.isSome_iff_exists.mp hstep
  have hrule : guardRule s (.request (.resetPut "v")) := by
    intro v hv _
    rw [hvnfs, List.mem_singleton] at hv
    exact .inl (hv ▸ hrun)
  exact ⟨s, t, hs, ht, hun, undisturbed_of_run (Runs.of_obeys (by decide +kernel) hs) hrule ht
    (by rw [hvnfs]; decide) hun⟩

/-- Two workers of `l2fwd_numa`, one to a block; the first runs, the second has not started. -/
def halfRun : List Label :=
  deployRun "l2fwd_numa" [0x4, 0x8] ++ [.ctl, .ctl, .ctl, .ctl, .ctl, .wrk 2, .wrk 2, .wrk 2]

/-- A worker of a VNF between the two ends of a panel is launched. -/
def panelRun : List Label :=
  [.request (.vnfPost "v" (some "l2fwd") fun _ => (0, 0)),
    .request (.portPost "x" (some "virt") none (.error "")), .request (.portPost "y" (some "virt") none (.error "")),
    .request (.pppPost "p" (some "x") (some "y") (fun _ _ => true) fun _ => (0, 0)),
    .request (.slotPut "v" 0 (some "x")), .request (.slotPut "v" 1 (some "y")), .request (.resetPut "v"),
    .request (.coremaskPut "v" 0 (some 0x4)), .request (.deployPut "v"), .ctl, .ctl, .ctl]

/-- After the run, the request writes what an un-joined worker of VNF 0 works with. -/
def WritesUnderWorker (ls : List Label) (r : Request) : Prop :=
  ∃ s t, exec step (.init 1 4 mainCatalog) ls = some s ∧ s.step (.request r) = some t ∧
    0 ∈ s.nfvi.vnfs ∧ s.Unjoined 0 0 2 ∧ ¬Undisturbed 0 s.nfvi t.nfvi

theorem writesUnderWorker_of {ls : List Label} {r : Request} (P : Nfvi → Nfvi → Bool)
    (hP : ∀ n n', P n n' = true → ¬Undisturbed 0 n n')
    (h : (exec step (.init 1 4 mainCatalog) ls).map (fun s => (s.nfvi.vnfs, (s.native.lcore 2).launched,
      (s.step (.request r)).map fun t => P s.nfvi t.nfvi)) = some ([0], some (.block 0 0), some true)) :
    WritesUnderWorker ls r := by
  obtain ⟨s, hs, hf⟩ := Option.map_eq_some_iff.mp h
  simp only [Prod.mk.injEq] at hf
  obtain ⟨hvnfs, hun, hstep⟩ := hf
  obtain ⟨t, ht, hwrites⟩ := Option.map_eq_some_iff.mp hstep
  exact ⟨s, t, hs, ht, by simp [hvnfs], hun, hP _ _ hwrites⟩

/-- A reset takes the block's vcores before its worker has started; a slot is emptied while the
worker of one of two blocks runs; and the panel between the ports of a worker is destroyed. -/
theorem not_undisturbed :
    WritesUnderWorker launchedRun (.resetPut "v") ∧ WritesUnderWorker halfRun (.slotDelete "v" 0) ∧
      WritesUnderWorker panelRun (.pppDelete "p") := by
  refine ⟨?_, ?_, ?_⟩
  · refine writesUnderWorker_of (fun n n' => decide ((n'.vnf 0).blocks.map Block.layout ≠
      (n.vnf 0).blocks.map Block.layout)) (fun n n' h hkept => ?_) (by decide +kernel)
    exact of_decide_eq_true h hkept.blocks
  · refine writesUnderWorker_of (fun n n' => decide ((n'.vnf 0).ports ≠ (n.vnf 0).ports))
      (fun n n' h hkept => ?_) (by decide +kernel)
    exact of_decide_eq_true h hkept.slots
  · refine writesUnderWorker_of (fun n n' => decide (∃ a ∈ n.ppps, n.OnPanel 0 a ∧ a ∉ n'.ppps))
      (fun n n' h hkept => ?_) (by decide +kernel)
    obtain ⟨a, ha, hon, hgone⟩ := of_decide_eq_true h
    exact hgone (hkept.panels a ha hon)

end Sys

end Susanow
