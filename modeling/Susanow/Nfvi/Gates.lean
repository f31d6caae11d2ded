import Susanow.Nfvi.Wiring

/-! The gate of a VNF.

Every request that writes a VNF's slots or blocks has found it by name and has asked
`is_running` first. `Kept` says so of the result: only a VNF behind an open gate is
written, no flag is, and a new VNF comes unconfigured; and accessors are left to the
requests that are there to write them. -/
namespace Susanow.Nfvi
open Proc (Within Meets within_bind within_pure within_get within_throw within_crash within_ite
  within_modify meets_pure meets_throw meets_bind_ret meets_bind_crash)

/-- The VNF whose gate a request asks before it writes a slot. -/
def slotGate (n : Nfvi) : Request → Option Nat
  | .slotPut iname _ _ => n.findVnf iname
  | .slotDelete iname _ => n.findVnf iname
  | _ => none

/-- The VNF whose gate a request asks before it writes masks, vcores and ids. -/
def blockGate (n : Nfvi) : Request → Option Nat
  | .coremaskPut iname _ _ => n.findVnf iname
  | .resetPut iname => n.findVnf iname
  | _ => none

/-- The VNF whose gate a deploy asks. -/
def deployGate (n : Nfvi) : Request → Option Nat
  | .deployPut iname => n.findVnf iname
  | _ => none

/-- The request asks for `v`, and `v` does not run. -/
def Open (n : Nfvi) (gate : Option Nat) (v : Nat) : Prop := gate = some v ∧ (n.vnf v).isRunning = false

instance (n : Nfvi) (gate : Option Nat) (v : Nat) : Decidable (n.Open gate v) :=
  inferInstanceAs (Decidable (_ ∧ _))

theorem mem_of_blockGate {n : Nfvi} {r : Request} {v : Nat} (h : n.blockGate r = some v) : v ∈ n.vnfs := by
  cases r with
  | resetPut | coremaskPut => exact List.mem_of_find?_eq_some h
  | _ => cases h

theorem mem_of_deployGate {n : Nfvi} {r : Request} {v : Nat} (h : n.deployGate r = some v) : v ∈ n.vnfs := by
  cases r with
  | deployPut iname => exact List.mem_of_find?_eq_some h
  | _ => cases h

/-- A block nobody has configured yet. -/
structure Unconfigured (b : Block) : Prop where
  running : b.running = false
  tids : b.tids = []
  vcores : b.vcores = []

/-- Panels, and the devices of the ports there were, are what they were. -/
structure Untouched (n n' : Nfvi) : Prop where
  ppps : n'.ppps = n.ppps
  ppp : n'.ppp = n.ppp
  dev : ∀ p < n.next, (n'.port p).dev = (n.port p).dev

theorem Untouched.of_eq {n n' : Nfvi} (hppps : n'.ppps = n.ppps) (hppp : n'.ppp = n.ppp)
    (hport : n'.port = n.port) : Untouched n n' :=
  ⟨hppps, hppp, fun p _ => by rw [hport]⟩

theorem Untouched.editPort {n : Nfvi} {p : Nat} {f : VnfPort → VnfPort} (hf : ∀ x, (f x).dev = x.dev) :
    Untouched n (n.editPort p f) :=
  ⟨rfl, rfl, fun q _ => congrFun (proj_update_self VnfPort.dev n.port p _ (hf _)) q⟩

/-- Only VNFs that `slotsOk` allows get other slots, and only those that `blocksOk` allows
other blocks; VNFs may be new. Panels and devices are written only if `tablesOk`. -/
structure Kept (slotsOk blocksOk : Nat → Prop) (tablesOk : Prop) (n n' : Nfvi) : Prop where
  next : n.next ≤ n'.next
  slots : ∀ w, (n'.vnf w).ports = (n.vnf w).ports ∨ slotsOk w ∨ n.next ≤ w
  blocks : ∀ w, (n'.vnf w).blocks = (n.vnf w).blocks ∨ blocksOk w ∨
    n.next ≤ w ∧ ∀ b ∈ (n'.vnf w).blocks, Unconfigured b
  flags : ∀ w b, n'.flag w b = n.flag w b ∨ n.next ≤ w ∧ n'.flag w b = false
  fits : ∀ w, (∀ b ∈ (n.vnf w).blocks, b.Fits) → ∀ b ∈ (n'.vnf w).blocks, b.Fits
  tables : tablesOk ∨ Untouched n n'

variable {slotsOk blocksOk : Nat → Prop} {tablesOk : Prop}

theorem Kept.of_eq {n n' : Nfvi} (hvnf : n'.vnf = n.vnf) (hnext : n.next ≤ n'.next)
    (htables : tablesOk ∨ Untouched n n') : Kept slotsOk blocksOk tablesOk n n' where
  next := hnext
  slots w := .inl (by rw [hvnf])
  blocks w := .inl (by rw [hvnf])
  flags w b := .inl (by rw [flag, flag, block?, block?, hvnf])
  fits w h := by rwa [hvnf]
  tables := htables

theorem Kept.trans {n n' n'' : Nfvi} (h : Kept slotsOk blocksOk tablesOk n n')
    (h' : Kept slotsOk blocksOk tablesOk n' n'') : Kept slotsOk blocksOk tablesOk n n'' where
  next := h.next.trans h'.next
  slots w := by
    rcases h'.slots w with heq | hok | hnew
    · rw [heq]
      exact h.slots w
    · exact .inr (.inl hok)
    · exact .inr (.inr (h.next.trans hnew))
  blocks w := by
    rcases h'.blocks w with heq | hok | ⟨hnew, hun⟩
    · rw [heq]
      exact h.blocks w
    · exact .inr (.inl hok)
    · exact .inr (.inr ⟨h.next.trans hnew, hun⟩)
  flags w b := by
    rcases h'.flags w b with heq | ⟨hnew, hfalse⟩
    · rw [heq]
      exact h.flags w b
    · exact .inr ⟨h.next.trans hnew, hfalse⟩
  fits w hfits := h'.fits w (h.fits w hfits)
  tables := by
    rcases h.tables with hok | hold
    · exact .inl hok
    · exact h'.tables.imp_right fun hnew => ⟨hnew.ppps.trans hold.ppps, hnew.ppp.trans hold.ppp,
        fun p hp => (hnew.dev p (hp.trans_le h.next)).trans (hold.dev p hp)⟩

instance : IsPreorder Nfvi (Kept slotsOk blocksOk tablesOk) where
  refl _ := .of_eq rfl le_rfl (.inr (.of_eq rfl rfl rfl))
  trans _ _ _ := Kept.trans

/-- No flag is raised. -/
theorem Kept.flag_of {n n' : Nfvi} (h : Kept slotsOk blocksOk tablesOk n n') {w b : Nat}
    (hf : n'.flag w b = true) : n.flag w b = true := by
  rcases h.flags w b with heq | ⟨-, hfalse⟩
  · rwa [← heq]
  · rw [hfalse] at hf
    cases hf

/-! ### What is written -/

theorem allowsTables_kept (h : tablesOk) (v : Nat) : AllowsTables v (Kept slotsOk blocksOk tablesOk) where
  device := fun _ _ _ _ _ _ _ _ _ => .of_eq rfl le_rfl (.inl h)
  deq := fun _ _ _ _ r _ _ _ => by cases r <;> exact .of_eq rfl le_rfl (.inl h)
  enq := fun _ _ _ _ r _ _ _ => by cases r <;> exact .of_eq rfl le_rfl (.inl h)

theorem kept_setSlots {n : Nfvi} {v : Nat} (f : Vnf → Vnf) (hf : ∀ x, (f x).blocks = x.blocks)
    (hv : slotsOk v) : Kept slotsOk blocksOk tablesOk n (n.editVnf v f) := by
  have hblocks (w : Nat) : ((n.editVnf v f).vnf w).blocks = (n.vnf w).blocks := by
    by_cases hw : w = v
    · subst hw
      exact (congrArg Vnf.blocks (Function.update_self w _ _)).trans (hf _)
    · exact congrArg Vnf.blocks (Function.update_of_ne hw _ _)
  refine ⟨le_rfl, fun w => ?_, fun w => .inl (hblocks w), fun w b => .inl ?_, fun w => ?_,
    .inr (.of_eq rfl rfl rfl)⟩
  · by_cases hw : w = v
    · exact .inr (.inl (hw ▸ hv))
    · exact .inl (congrArg Vnf.ports (Function.update_of_ne hw _ _))
  · rw [flag, flag, block?, block?, hblocks]
  · rw [hblocks]
    exact id

theorem kept_editBlock {n : Nfvi} {v bid : Nat} {f : Block → Block} (hv : blocksOk v)
    (hf : ∀ b, (f b).running = b.running) (hfit : ∀ b, b.Fits → (f b).Fits) :
    Kept slotsOk blocksOk tablesOk n (n.editBlock v bid f) := by
  have hother {w : Nat} (hw : w ≠ v) : (n.editBlock v bid f).vnf w = n.vnf w :=
    Function.update_of_ne hw _ _
  refine ⟨le_rfl, fun w => .inl ?_, fun w => ?_, fun w b => .inl ?_, fun w h b hb => ?_,
    .inr (.of_eq rfl rfl rfl)⟩
  · by_cases hw : w = v
    · subst hw
      simp [editBlock, editVnf]
    · exact congrArg Vnf.ports (hother hw)
  · by_cases hw : w = v
    · exact .inr (.inl (hw ▸ hv))
    · exact .inl (congrArg Vnf.blocks (hother hw))
  · unfold flag
    rw [block?_editBlock]
    split
    · cases n.block? w b <;> simp [hf]
    · rfl
  · obtain ⟨i, hi⟩ := List.getElem?_of_mem hb
    have hb' : (n.editBlock v bid f).block? w i = some b := hi
    rw [block?_editBlock] at hb'
    split at hb'
    · obtain ⟨x, hx, rfl⟩ := Option.map_eq_some_iff.mp hb'
      exact hfit x (h x (List.mem_of_getElem? hx))
    · exact h b (List.mem_of_getElem? hb')

theorem allows_kept {v : Nat} (hv : blocksOk v) : Allows v (Kept slotsOk blocksOk tablesOk) where
  port := fun _ _ _ hf => .of_eq rfl le_rfl (.inr (.editPort fun x => (hf x).2.2))
  block := fun _ _ _ hf hfit => kept_editBlock hv hf hfit

/-- A handler that reads the state and goes on. -/
theorem within_get_bind {R : Nfvi → Nfvi → Prop} {α : Type} {f : Nfvi → Proc Nfvi α}
    (h : ∀ n, Meets (f n) n (fun _ => R n) (R n)) : Within R (Proc.get >>= f) :=
  fun n => Proc.meets_get_bind (h n)

theorem kept_newVnf (n : Nfvi) (iname : String) (c : VnfClass) (mem : Nat → BitVec 32 × Nat) :
    Kept slotsOk blocksOk tablesOk n
      {n with vnfs := n.vnfs ++ [n.next],
              vnf := Function.update n.vnf n.next (newVnf n.nSocket iname c mem),
              next := n.next + 1} := by
  have hnew (b : Block) (hb : b ∈ (newVnf n.nSocket iname c mem).blocks) : Unconfigured b := by
    obtain ⟨i, hi, rfl⟩ := List.mem_mapIdx.mp hb
    exact ⟨rfl, rfl, rfl⟩
  have hother {w : Nat} (hw : w ≠ n.next) :
      Function.update n.vnf n.next (newVnf n.nSocket iname c mem) w = n.vnf w :=
    Function.update_of_ne hw _ _
  refine ⟨Nat.le_succ _, fun w => ?_, fun w => ?_, fun w b => ?_, fun w h b hb => ?_,
    .inr (.of_eq rfl rfl rfl)⟩ <;> by_cases hw : w = n.next
  · exact .inr (.inr hw.ge)
  · exact .inl (congrArg Vnf.ports (hother hw))
  · refine .inr (.inr ⟨hw.ge, ?_⟩)
    simpa [hw] using hnew
  · exact .inl (congrArg Vnf.blocks (hother hw))
  · refine .inr ⟨hw.ge, ?_⟩
    simp only [flag, block?, hw, Function.update_self]
    cases hb : (newVnf n.nSocket iname c mem).blocks[b]? with
    | none => rfl
    | some x => exact (hnew x (List.mem_of_getElem? hb)).running
  · exact .inl (by simp only [flag, block?, hother hw])
  · have hun := hnew b (by simpa [hw] using hb)
    rw [Block.Fits, hun.tids, hun.vcores]
    rfl
  · exact h b (by simpa [hother hw] using hb)

/-! ### Handlers -/

section Handlers
variable {R : Nfvi → Nfvi → Prop} [IsPreorder Nfvi R]

theorem within_vnfPost (iname : String) (cname : Option String) (mem : Nat → BitVec 32 × Nat)
    (hnew : ∀ n c, R n {n with vnfs := n.vnfs ++ [n.next],
                               vnf := Function.update n.vnf n.next (newVnf n.nSocket iname c mem),
                               next := n.next + 1}) : Within R (vnfPost iname cname mem) := by
  refine within_bind (within_field _) fun cname => within_bind ?_ fun _ => within_ite (within_yes _) (within_no _)
  refine within_get_bind fun n => ?_
  split
  · exact within_pure _ n
  · split
    · exact within_pure _ n
    · exact meets_bind_ret (Proc.set_run _ _) (meets_pure (hnew n _))

theorem within_attachPort {v : Nat} (pid p : Nat) (hslot : Within R (setSlot v pid (some p)))
    (howner : Within R (modifyPort p (VnfPort.attachVnf v))) : Within R (attachPort v pid p) := by
  refine within_bind (within_vnfAt v) fun x => ?_
  split
  · exact within_throw _
  · exact within_pure _
  · exact within_bind (within_portAt p) fun port => within_ite (within_pure _) <|
      within_bind hslot fun _ => within_bind howner fun _ => within_pure _

theorem within_dettachPort {v : Nat} (pid : Nat) (hslot : Within R (setSlot v pid none))
    (howner : ∀ p, Within R (modifyPort p VnfPort.dettachVnf)) : Within R (dettachPort v pid) := by
  refine within_bind (within_vnfAt v) fun x => ?_
  split
  · exact within_throw _
  · exact within_pure _
  · exact within_bind (within_portAt _) fun port => within_bind (howner _) fun _ =>
      within_bind hslot fun _ => within_pure _

/-- A slot is written of a VNF that was found and does not run. -/
theorem slotPut_within {iname : String} {pid : Int} {pname : Option String} {n : Nfvi}
    (h : ∀ v, n.findVnf iname = some v → (n.vnf v).isRunning = false → ∀ pid p, Within R (attachPort v pid p)) :
    Meets (slotPut iname pid pname) n (fun _ => R n) (R n) := by
  refine Proc.meets_get_bind ?_
  split
  · exact within_no _ n
  · next v hv =>
    split_ifs with hpid hrun
    · exact within_no _ n
    · refine within_bind (within_field _) (fun pname => ?_) n
      split
      · exact within_no _
      · exact within_ite (within_no _) (within_bind (h v hv (by simpa using hrun) _ _) fun _ =>
          within_ite (within_no _) (within_yes _))
    · exact within_no _ n

theorem slotDelete_within {iname : String} {pid : Int} {n : Nfvi}
    (h : ∀ v, n.findVnf iname = some v → (n.vnf v).isRunning = false → ∀ pid, Within R (dettachPort v pid)) :
    Meets (slotDelete iname pid) n (fun _ => R n) (R n) := by
  refine Proc.meets_get_bind ?_
  split
  · exact within_no _ n
  · next v hv =>
    split_ifs with hpid hrun
    · exact within_no _ n
    · exact within_bind (h v hv (by simpa using hrun) _) (fun _ => within_ite (within_no _) (within_yes _)) n
    · exact within_no _ n

theorem within_deployPut (iname : String) (h : ∀ v, Within R (deploy v)) : Within R (deployPut iname) := by
  refine within_get_bind fun n => ?_
  split
  · exact within_no _ n
  · exact within_ite (within_no _) (h _) n

/-- A row is taken out of a table. -/
theorem within_unlist {n n' : Nfvi} {P : Prop} [Decidable P] {what : String} (h : R n n') :
    Meets (if P then Proc.set n' else Proc.throw what) n (fun _ => R n) (R n) := by
  split
  · exact Proc.meets_of_ret (Proc.set_run n' n) h
  · exact meets_throw (refl_of R n)

theorem within_vnfDelete (iname : String) (hdel : ∀ n v, R n {n with vnfs := n.vnfs.erase v}) :
    Within R (vnfDelete iname) := by
  refine within_bind within_get fun n => ?_
  split
  · exact within_no _
  · refine within_ite (within_bind ?_ fun _ => within_yes _) (within_no _)
    exact within_get_bind fun n => within_unlist (hdel n _)

theorem within_portDelete (pname : String) (hdel : ∀ n p, R n {n with ports := n.ports.erase p}) :
    Within R (portDelete pname) := by
  refine within_bind within_get fun n => ?_
  split
  · exact within_no _
  · refine within_ite (within_no _) (within_bind ?_ fun _ => within_yes _)
    exact within_get_bind fun n => within_unlist (hdel n _)

theorem within_makePort (pname cname : String) (option : Option String) (attach : Except String Nat)
    (hdev : ∀ n, R n {n with nDev := n.nDev + 1}) : Within R (makePort pname cname option attach) := by
  have hthen (g : Dev → VnfPort) : Within R (attachDev attach >>= fun d => pure (some (g d))) := by
    refine within_bind ?_ fun _ => within_pure _
    unfold attachDev
    split
    · exact within_throw _
    · exact within_get_bind fun n => meets_bind_ret (Proc.set_run _ _) (meets_pure (hdev n))
  unfold makePort
  split_ifs
  · exact within_bind (within_field _) fun _ => hthen _
  · exact hthen _
  · exact within_bind (within_field _) fun _ => hthen _
  · exact hthen _
  · exact within_bind (within_field _) fun _ => hthen _
  · exact within_pure _
  · exact within_pure _

theorem within_portPost (pname : String) (cname option : Option String) (attach : Except String Nat)
    (hdev : ∀ n, R n {n with nDev := n.nDev + 1}) (hport : ∀ p, Within R (appendPort p)) :
    Within R (portPost pname cname option attach) := by
  refine within_bind within_get fun n => within_ite (within_no _) (within_bind (within_field _)
    fun cname => ?_)
  intro n
  refine Proc.meets_catching (within_bind (within_makePort _ _ _ _ hdev) (fun o => ?_) n)
    fun w n' h => meets_pure h
  cases o with
  | none => exact within_no _
  | some p => exact within_bind (hport p) fun _ => within_yes _

theorem within_pppPost (name : String) (right left : Option String) (alloc : Nat → Nat → Bool)
    (mem : Nat → Nat × Nat) (hadd : ∀ n x, R n (n.addPpp x)) (hdev : ∀ p d, Within R (modifyPort p (VnfPort.setDev d))) :
    Within R (pppPost name right left alloc mem) := by
  refine within_bind within_get fun n => within_ite (within_no _) (within_bind (within_field _)
    fun rightName => within_bind (within_field _) fun leftName => within_bind ?_ fun _ =>
      within_ite (within_yes _) (within_no _))
  refine within_bind within_get fun n => within_ite (within_pure _) ?_
  split
  · refine within_ite (within_bind (within_virtPatched _) fun _ => within_ite (within_pure _) ?_)
      (within_pure _)
    refine within_bind (within_virtPatched _) fun _ => within_ite (within_pure _) (within_bind ?_
      fun _ => within_pure _)
    refine within_bind (within_portAt _) fun r => within_bind (within_portAt _) fun l =>
      within_ite ?_ (within_throw _)
    refine within_bind Proc.within_fresh fun _ => within_bind Proc.within_fresh fun _ => ?_
    exact within_get_bind fun n => Proc.meets_bind_within (Proc.meets_of_ret (Proc.set_run _ n) (hadd n _))
      fun _ => within_bind (hdev _ _) fun _ => hdev _ _
  · exact within_pure _

theorem within_pppDelete (name : String) (hdel : ∀ n a, R n {n with ppps := n.ppps.erase a})
    (hdev : ∀ p d, Within R (modifyPort p (VnfPort.setDev d))) : Within R (pppDelete name) := by
  refine within_bind within_get fun n => ?_
  split
  · exact within_no _
  · refine within_bind (within_endpointFree _) fun _ => within_ite (within_bind (within_endpointFree _)
      fun _ => within_ite (within_bind ?_ fun _ => within_yes _) (within_no _)) (within_no _)
    refine within_get_bind fun n => ?_
    split
    · exact Proc.meets_bind_within (Proc.meets_of_ret (Proc.set_run _ n) (hdel n _)) fun _ =>
        within_bind (within_portAt _) fun _ => within_bind (hdev _ _) fun _ =>
          within_bind (within_portAt _) fun _ => hdev _ _
    · exact within_ite (within_throw _) (within_crash _) n

end Handlers

theorem kept_modifyPort (p : Nat) {f : VnfPort → VnfPort} (hf : tablesOk ∨ ∀ x, (f x).dev = x.dev) :
    Within (Kept slotsOk blocksOk tablesOk) (modifyPort p f) :=
  within_modify fun _ => .of_eq rfl le_rfl (hf.imp_right .editPort)

theorem kept_setSlot {v : Nat} (hv : slotsOk v) (pid : Nat) (slot : Option Nat) :
    Within (Kept slotsOk blocksOk tablesOk) (setSlot v pid slot) :=
  within_modify fun _ => kept_setSlots _ (fun _ => rfl) hv

theorem kept_portPost (pname : String) (cname option : Option String) (attach : Except String Nat) :
    Within (Kept slotsOk blocksOk tablesOk) (portPost pname cname option attach) := by
  refine within_portPost _ _ _ _ (fun n => .of_eq rfl le_rfl (.inr (.of_eq rfl rfl rfl))) fun p => ?_
  refine within_modify fun n => .of_eq rfl (Nat.le_succ _) (.inr ⟨rfl, rfl, fun q hq => ?_⟩)
  exact congrArg VnfPort.dev (Function.update_of_ne hq.ne _ _)

theorem kept_pppPost (h : tablesOk) (name : String) (right left : Option String)
    (alloc : Nat → Nat → Bool) (mem : Nat → Nat × Nat) :
    Within (Kept slotsOk blocksOk tablesOk) (pppPost name right left alloc mem) :=
  within_pppPost _ _ _ _ _ (fun _ _ => .of_eq rfl (Nat.le_succ _) (.inl h)) fun p _ => kept_modifyPort p (.inl h)

theorem kept_pppDelete (h : tablesOk) (name : String) : Within (Kept slotsOk blocksOk tablesOk) (pppDelete name) :=
  within_pppDelete _ (fun _ _ => .of_eq rfl le_rfl (.inl h)) fun p _ => kept_modifyPort p (.inl h)

/-- `deploy` up to its blocks writes no VNF. -/
theorem kept_deploy (h : tablesOk) (v : Nat) : Within (Kept slotsOk blocksOk tablesOk) (deploy v) :=
  within_bind (allowsTables_kept h v).deployPorts fun _ => within_ite (within_pure _) (within_pure _)

/-- The requests that write accessors and panels. -/
def writesTables : Request → Prop
  | .deployPut _ => True
  | .pppPost _ _ _ _ _ => True
  | .pppDelete _ => True
  | _ => False

/-- **Only a VNF behind an open gate is written.** -/
theorem kept_handle (th : Native Task) (r : Request) (n : Nfvi) :
    Meets (handle th r) n
      (fun _ => Kept (n.Open (n.slotGate r)) (n.Open (n.blockGate r)) (writesTables r) n)
      (Kept (n.Open (n.slotGate r)) (n.Open (n.blockGate r)) (writesTables r) n) := by
  cases r with
  | vnfPost iname cname mem => exact within_vnfPost iname cname mem (fun n c => kept_newVnf n iname c mem) n
  | vnfDelete iname =>
    exact within_vnfDelete iname (fun _ _ => .of_eq rfl le_rfl (.inr (.of_eq rfl rfl rfl))) n
  | slotPut iname pid pname =>
    refine slotPut_within fun v hv hrun pid p => within_attachPort pid p ?_ (kept_modifyPort p (.inr fun _ => rfl))
    exact kept_setSlot ⟨hv, hrun⟩ pid (some p)
  | slotDelete iname pid =>
    refine slotDelete_within fun v hv hrun pid => within_dettachPort pid ?_ fun p => kept_modifyPort p (.inr fun _ => rfl)
    exact kept_setSlot ⟨hv, hrun⟩ pid none
  | portPost pname cname option attach => exact kept_portPost pname cname option attach n
  | portDelete pname =>
    exact within_portDelete pname (fun _ _ => .of_eq rfl le_rfl (.inr (.of_eq rfl rfl rfl))) n
  | coremaskPut iname blockId coremask =>
    exact coremaskPut_within th blockId coremask fun v hv hrun => (allows_kept ⟨hv, hrun⟩).own.setCoremask
  | resetPut iname => exact resetPut_within fun v hv hrun => (allows_kept ⟨hv, hrun⟩).own.reset
  | deployPut iname => exact within_deployPut iname (kept_deploy trivial) n
  | undeployPut iname => exact within_undeployPut iname n
  | pppPost name right left alloc mem => exact kept_pppPost trivial name right left alloc mem n
  | pppDelete name => exact kept_pppDelete trivial name n

/-- The VNF whose blocks a direct call writes. -/
def configures : Call → Nat → Prop
  | .reset v, w => w = v
  | .setCoremask v _ _, w => w = v
  | _, _ => False

theorem kept_invoke (c : Call) (n : Nfvi) :
    Meets (Sys.invoke c) n (fun _ => Kept (fun _ => False) (configures c) True n)
      (Kept (fun _ => False) (configures c) True n) := by
  cases c with
  | reset v =>
    have hv : configures (.reset v) v := rfl
    exact within_bind (allows_kept hv).own.reset (fun _ => within_pure _) n
  | setCoremask v bid cmask =>
    have hv : configures (.setCoremask v bid cmask) v := rfl
    exact within_bind ((allows_kept hv).own.setCoremask _ _) (fun _ => within_pure _) n
  | deploy v => exact kept_deploy trivial v n
  | undeploy v => exact within_bind (within_vnfAt v) (fun _ => within_pure _) n

/-! ### Who launches -/

/-- The handler replies, or throws: it has come to no block loop. -/
def Answers (p : Proc Nfvi Next) : Prop := ∀ n nx n', p n = .ret nx n' → ∃ r, nx = .done (.reply r)

theorem answers_done (r : Reply) : Answers (pure (.done (.reply r))) := by
  intro n nx n' h
  cases h
  exact ⟨r, rfl⟩

theorem answers_throw (w : String) : Answers (Proc.throw w) := by
  intro n nx n' h
  cases h

theorem answers_bind {α : Type} {p : Proc Nfvi α} {f : α → Proc Nfvi Next} (hf : ∀ a, Answers (f a)) :
    Answers (p >>= f) := by
  intro n nx n' h
  obtain ⟨a, t, -, h⟩ := Proc.bind_eq_ret h
  exact hf a t nx n' h

theorem answers_ite {P : Prop} [Decidable P] {p q : Proc Nfvi Next} (hp : Answers p) (hq : Answers q) :
    Answers (if P then p else q) := by
  split
  · exact hp
  · exact hq

theorem answers_catching {p : Proc Nfvi Next} {h : String → Proc Nfvi Next} (hp : Answers p)
    (hh : ∀ w, Answers (h w)) : Answers (Proc.catching p h) := by
  intro n nx n' hrun
  unfold Proc.catching at hrun
  split at hrun
  · next hp' =>
    cases hrun
    exact hp _ _ _ hp'
  · exact hh _ _ _ _ hrun
  · cases hrun

theorem answers_portPost (pname : String) (cname option : Option String) (attach : Except String Nat) :
    Answers (portPost pname cname option attach) := by
  refine answers_bind fun n => answers_ite (answers_done _) (answers_bind fun cname => ?_)
  refine answers_catching (answers_bind fun o => ?_) fun w => answers_done _
  cases o with
  | none => exact answers_done _
  | some p => exact answers_bind fun _ => answers_done _

/-- A request let through that deploys does what `deploy` does up to the blocks. -/
theorem handle_deploy (th : Native Task) {r : Request} {n : Nfvi} {v : Nat} (h : n.Open (n.deployGate r) v) :
    handle th r n = deploy v n := by
  obtain ⟨hgate, hrun⟩ := h
  cases r with
  | deployPut iname =>
    have hfind : n.findVnf iname = some v := hgate
    simp only [handle, deployPut, Proc.get_bind, hfind, Proc.ite_run, hrun, Bool.false_eq_true, if_false]
  | _ => cases hgate

/-- A handler that does not reply has let a deploy or an undeploy through. -/
theorem handle_next {th : Native Task} {r : Request} {n n' : Nfvi} {nx : Next}
    (h : handle th r n = .ret nx n') :
    (∃ r, nx = .done (.reply r)) ∨
      (∃ v, (nx = .launch v ∨ nx = .done (.deployed v (-1))) ∧ n.Open (n.deployGate r) v) ∨
      ∃ v, nx = .undeploy v ∧ (n.vnf v).isRunning = true := by
  cases r with
  | vnfPost iname cname mem =>
    exact .inl (answers_bind (fun _ => answers_bind fun _ => answers_ite (answers_done _)
      (answers_done _)) _ _ _ h)
  | vnfDelete iname =>
    refine .inl (answers_bind (fun m => ?_) _ _ _ h)
    split
    · exact answers_done _
    · exact answers_ite (answers_bind fun _ => answers_done _) (answers_done _)
  | slotPut iname pid pname =>
    refine .inl (answers_bind (fun m => ?_) _ _ _ h)
    split
    · exact answers_done _
    · refine answers_ite (answers_ite (answers_done _) (answers_bind fun _ => ?_)) (answers_done _)
      split
      · exact answers_done _
      · exact answers_ite (answers_done _) (answers_bind fun _ => answers_ite (answers_done _)
          (answers_done _))
  | slotDelete iname pid =>
    refine .inl (answers_bind (fun m => ?_) _ _ _ h)
    split
    · exact answers_done _
    · exact answers_ite (answers_ite (answers_done _) (answers_bind fun _ =>
        answers_ite (answers_done _) (answers_done _))) (answers_done _)
  | portPost pname cname option attach => exact .inl (answers_portPost _ _ _ _ _ _ _ h)
  | portDelete pname =>
    refine .inl (answers_bind (fun m => ?_) _ _ _ h)
    split
    · exact answers_done _
    · exact answers_ite (answers_done _) (answers_bind fun _ => answers_done _)
  | coremaskPut iname blockId coremask =>
    refine .inl (answers_bind (fun m => ?_) _ _ _ h)
    split
    · exact answers_done _
    · exact answers_ite (answers_done _) (answers_ite (answers_throw _) (answers_bind fun b =>
        answers_ite (answers_done _) (answers_bind fun _ => answers_bind fun _ =>
          answers_ite (answers_bind fun _ => answers_ite (answers_done _) (answers_done _)) (answers_done _))))
  | resetPut iname =>
    refine .inl (answers_bind (fun m => ?_) _ _ _ h)
    split
    · exact answers_done _
    · exact answers_ite (answers_done _) (answers_bind fun _ => answers_ite (answers_done _)
        (answers_done _))
  | deployPut iname =>
    cases hv : n.findVnf iname with
    | none =>
      simp only [handle, deployPut, Proc.get_bind, hv] at h
      exact .inl (answers_done _ _ _ _ h)
    | some v =>
      simp only [handle, deployPut, Proc.get_bind, hv, Proc.ite_run] at h
      split_ifs at h with hrun
      · exact .inl (answers_done _ _ _ _ h)
      · obtain ⟨ok, t, -, h⟩ := Proc.bind_eq_ret h
        have hopen : n.Open (n.deployGate (.deployPut iname)) v := ⟨hv, by simpa using hrun⟩
        cases ok with
        | false =>
          cases h
          exact .inr (.inl ⟨v, .inr rfl, hopen⟩)
        | true =>
          cases h
          exact .inr (.inl ⟨v, .inl rfl, hopen⟩)
  | undeployPut iname =>
    cases hv : n.findVnf iname with
    | none =>
      simp only [handle, undeployPut, Proc.get_bind, hv] at h
      exact .inl (answers_done _ _ _ _ h)
    | some v =>
      simp only [handle, undeployPut, Proc.get_bind, hv, Proc.ite_run] at h
      split_ifs at h with hrun
      · cases h
        exact .inr (.inr ⟨v, rfl, hrun⟩)
      · exact .inl (answers_done _ _ _ _ h)
  | pppPost name right left alloc mem =>
    exact .inl (answers_bind (fun m => answers_ite (answers_done _) (answers_bind fun _ =>
      answers_bind fun _ => answers_bind fun _ => answers_ite (answers_done _) (answers_done _))) _ _ _ h)
  | pppDelete name =>
    refine .inl (answers_bind (fun m => ?_) _ _ _ h)
    split
    · exact answers_done _
    · exact answers_bind fun _ => answers_ite (answers_bind fun _ => answers_ite (answers_bind fun _ =>
        answers_done _) (answers_done _)) (answers_done _)

end Susanow.Nfvi
