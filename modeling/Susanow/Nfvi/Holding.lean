import Susanow.Nfvi.Attachment
import Susanow.Nfvi.Gates
import Susanow.Nfvi.Numbering

/-! Ids that stay good.

The vcores of a VNF keep the ids they have drawn, whatever becomes of its slots. As long
as the ids held for a slot differ, and lie below the counter of the port that is in it,
no later draw gives one of them again (`Holding`). A request can spoil that in one way:
it puts a port into the slot that has not counted as far (`Covers`). -/
namespace Susanow

namespace Nfvi
open Proc (Within Meets within_pure within_modify)

/-! ### Requests that draw no id -/

/-- The counters of the ports there were have not moved, and no block polls beyond its ports. -/
structure Still (n n' : Nfvi) : Prop where
  next : n.next ≤ n'.next
  acc : ∀ p < n.next, ∀ tx, (n'.port p).nAcc tx = (n.port p).nAcc tx
  polls : (∀ v, n.PollsIn v) → ∀ v, n'.PollsIn v

instance : IsPreorder Nfvi Still where
  refl _ := ⟨le_rfl, fun _ _ _ => rfl, id⟩
  trans _ _ _ h h' := ⟨h.next.trans h'.next,
    fun p hp tx => (h'.acc p (hp.trans_le h.next) tx).trans (h.acc p hp tx), h'.polls ∘ h.polls⟩

section Still
variable {n n' : Nfvi}

theorem pollsIn_congr {v : Nat} (h : n'.vnf v = n.vnf v) (hpolls : n.PollsIn v) : n'.PollsIn v := by
  unfold PollsIn block?
  rw [h]
  exact hpolls

theorem Still.of_vnf (hvnf : n'.vnf = n.vnf) (hnext : n.next ≤ n'.next)
    (hacc : ∀ p < n.next, ∀ tx, (n'.port p).nAcc tx = (n.port p).nAcc tx) : Still n n' :=
  ⟨hnext, hacc, fun h v => pollsIn_congr (congrFun hvnf v) (h v)⟩

theorem nAcc_editPort {f : VnfPort → VnfPort} (hf : ∀ x tx, (f x).nAcc tx = x.nAcc tx) (n : Nfvi) (p q : Nat)
    (tx : Bool) : ((n.editPort p f).port q).nAcc tx = (n.port q).nAcc tx :=
  congrFun (proj_update_self (VnfPort.nAcc tx) n.port p _ (hf _ tx)) q

theorem Still.editPort {p : Nat} {f : VnfPort → VnfPort} (hf : ∀ x tx, (f x).nAcc tx = x.nAcc tx) :
    Still n (n.editPort p f) :=
  .of_vnf rfl le_rfl fun q _ => nAcc_editPort hf n p q

theorem still_modifyPort (p : Nat) {f : VnfPort → VnfPort} (hf : ∀ x tx, (f x).nAcc tx = x.nAcc tx) :
    Within Still (modifyPort p f) :=
  within_modify fun _ => .editPort hf

theorem still_setSlot (v pid : Nat) (slot : Option Nat) : Within Still (setSlot v pid slot) := by
  refine within_modify fun n => ⟨le_rfl, fun _ _ _ => rfl, fun h w => ?_⟩
  by_cases hw : w = v
  · subst hw
    have hpolls := h w
    unfold PollsIn block? at hpolls ⊢
    simpa [editVnf, Vnf.nPorts] using hpolls
  · exact pollsIn_congr (Function.update_of_ne hw _ _) (h w)

/-- A new VNF's blocks poll the ports of its class. -/
theorem still_newVnf (n : Nfvi) (iname : String) (c : VnfClass) (mem : Nat → BitVec 32 × Nat) :
    Still n {n with vnfs := n.vnfs ++ [n.next],
                    vnf := Function.update n.vnf n.next (newVnf n.nSocket iname c mem),
                    next := n.next + 1} := by
  refine ⟨Nat.le_succ _, fun _ _ _ => rfl, fun h w => ?_⟩
  by_cases hw : w = n.next
  · subst hw
    intro bid b hb portId hcls
    simp only [block?, Function.update_self] at hb ⊢
    obtain ⟨i, hi, rfl⟩ := List.mem_mapIdx.mp (List.mem_of_getElem? hb)
    have hlt := c.polls_lt portId (hcls ▸ List.getElem_mem hi)
    simpa [newVnf, Vnf.nPorts] using hlt
  · exact pollsIn_congr (Function.update_of_ne hw _ _) (h w)

theorem allowsTables_still (v : Nat) : AllowsTables v Still where
  device _ _ _ _ _ _ _ _ _ := .editPort fun _ _ => rfl
  deq _ _ _ _ r _ _ _ := by cases r <;> exact .of_vnf rfl le_rfl fun _ _ _ => rfl
  enq _ _ _ _ r _ _ _ := by cases r <;> exact .of_vnf rfl le_rfl fun _ _ _ => rfl

end Still

/-- The requests that write the counters of ports. -/
def writesCounters : Request → Prop
  | .coremaskPut _ _ _ => True
  | .resetPut _ => True
  | _ => False

theorem still_handle (th : Native Task) {r : Request} (hr : ¬writesCounters r) : Within Still (handle th r) := by
  have hsame {n n' : Nfvi} (hvnf : n'.vnf = n.vnf) (hport : n'.port = n.port) (hnext : n.next ≤ n'.next) :
      Still n n' := .of_vnf hvnf hnext fun _ _ _ => by rw [hport]
  have hdev (p : Nat) (d : Dev) : Within Still (modifyPort p (VnfPort.setDev d)) := still_modifyPort p fun _ _ => rfl
  cases r with
  | vnfPost iname cname mem => exact within_vnfPost iname cname mem fun n c => still_newVnf n iname c mem
  | vnfDelete iname => exact within_vnfDelete iname fun _ _ => hsame rfl rfl le_rfl
  | slotPut iname pid pname =>
    exact fun n => slotPut_within fun v _ _ pid p =>
      within_attachPort pid p (still_setSlot v pid _) (still_modifyPort p fun _ _ => rfl)
  | slotDelete iname pid =>
    exact fun n => slotDelete_within fun v _ _ pid =>
      within_dettachPort pid (still_setSlot v pid _) fun p => still_modifyPort p fun _ _ => rfl
  | portPost pname cname option attach =>
    refine within_portPost _ _ _ _ (fun _ => hsame rfl rfl le_rfl) fun p => within_modify fun n => ?_
    exact .of_vnf rfl (Nat.le_succ _) fun q hq tx => congrArg (VnfPort.nAcc tx) (Function.update_of_ne hq.ne _ _)
  | portDelete pname => exact within_portDelete pname fun _ _ => hsame rfl rfl le_rfl
  | coremaskPut | resetPut => exact absurd trivial hr
  | deployPut iname =>
    exact within_deployPut iname fun v => Proc.within_bind (allowsTables_still v).deployPorts fun _ =>
      Proc.within_ite (within_pure _) (within_pure _)
  | undeployPut iname => exact within_undeployPut iname
  | pppPost name right left alloc mem =>
    exact within_pppPost _ _ _ _ _ (fun _ _ => hsame rfl rfl (Nat.le_succ _)) hdev
  | pppDelete name => exact within_pppDelete _ (fun _ _ => hsame rfl rfl le_rfl) hdev

/-! ### Requests that do -/

/-- Counters have moved of ports of `w` only, and no block polls beyond its ports. -/
structure Toll (w : Nat) (n n' : Nfvi) : Prop where
  slots : (n'.vnf w).ports = (n.vnf w).ports
  acc : ∀ p, some p ∉ (n.vnf w).ports → ∀ tx, (n'.port p).nAcc tx = (n.port p).nAcc tx
  polls : (∀ v, n.PollsIn v) → ∀ v, n'.PollsIn v

instance (w : Nat) : IsPreorder Nfvi (Toll w) where
  refl _ := ⟨rfl, fun _ _ _ => rfl, id⟩
  trans _ _ _ h h' := ⟨h'.slots.trans h.slots,
    fun p hp tx => (h'.acc p (h.slots ▸ hp) tx).trans (h.acc p hp tx), h'.polls ∘ h.polls⟩

theorem allowsOwn_toll (w : Nat) : AllowsOwn w (Toll w) where
  port n i q f hslot hf := by
    refine ⟨rfl, fun p hp tx => congrArg (VnfPort.nAcc tx) (Function.update_of_ne ?_ _ _),
      fun h v => pollsIn_congr rfl (h v)⟩
    rintro rfl
    exact hp (List.mem_of_getElem? hslot)
  block n bid f hf hfit := by
    have hports (v : Nat) : ((n.editBlock w bid f).vnf v).ports = (n.vnf v).ports :=
      ports_of_wiring (wiring_editBlock n w bid f) v
    refine ⟨hports w, fun _ _ _ => rfl, fun h v k b hb portId hcls => ?_⟩
    rw [Vnf.nPorts, hports]
    rw [block?_editBlock] at hb
    split at hb
    · obtain ⟨c, hc, rfl⟩ := Option.map_eq_some_iff.mp hb
      exact h v k c hc portId ((hf c).2 ▸ hcls)
    · exact h v k b hb portId hcls

/-- The VNF whose counters move has no port of `v`. -/
theorem Toll.acc_others {n n' : Nfvi} {v w : Nat} (h : Toll w n n') (hatt : n.wiring.Attached) (hv : v ∈ n.vnfs)
    (hw : w ∈ n.vnfs) (hne : v ≠ w) (p : Nat) (hp : some p ∈ (n.vnf v).ports) (tx : Bool) :
    (n'.port p).nAcc tx = (n.port p).nAcc tx := by
  refine h.acc p (fun hpw => hne ?_) tx
  exact Option.some.inj ((owner_of_slot hatt hv hp).symm.trans (owner_of_slot hatt hw hpw))

/-! ### Ids held -/

/-- What the vcores of `v` hold for a slot are different ids, below the counter of its port. -/
def Holding (n : Nfvi) (v : Nat) : Prop :=
  ∀ tx, ∀ pid < (n.vnf v).nPorts, ∃ c, Tickets (n.aid tx v pid) (n.workers v tx pid) 0 c ∧
    ∀ p, (n.vnf v).ports[pid]? = some (some p) → c ≤ (n.port p).nAcc tx

/-- The ids that the vcores of `v` hold for the slot are below what `p` has counted. -/
def Covers (n : Nfvi) (v pid p : Nat) : Prop :=
  ∀ b ∈ (n.vnf v).blocks, ∀ vc ∈ b.vcores,
    (b.receives pid = true → ∀ a ∈ vc.portRxAcc[pid]?, a < (n.port p).nRxacc) ∧
      ∀ a ∈ vc.portTxAcc[pid]?, a < (n.port p).nTxacc

instance (n : Nfvi) (v pid p : Nat) : Decidable (n.Covers v pid p) :=
  inferInstanceAs (Decidable (∀ b ∈ _, ∀ vc ∈ _, _))

section Holding
variable {n n' : Nfvi} {v bid pid p : Nat} {b : Block} {mask : BitVec 32} {E : Nfvi → Prop}

theorem Covers.lt (h : n.Covers v pid p) {tx : Bool} {w : Nat × Nat} (hw : w ∈ n.workers v tx pid) :
    ∀ a ∈ n.aid tx v pid w, a < (n.port p).nAcc tx := by
  intro a ha
  obtain ⟨b, hb, htx, hlt⟩ := hw
  obtain ⟨c, hc, hbound⟩ := Option.bind_eq_some_iff.mp ha
  obtain ⟨vc, hvc, hid⟩ := Option.bind_eq_some_iff.mp hbound
  cases hb.symm.trans hc
  have hcovers := h b (List.mem_of_getElem? hb) vc (List.mem_of_getElem? hvc)
  cases tx with
  | false => exact hcovers.1 (htx.resolve_left nofun) a hid
  | true => exact hcovers.2 a hid

/-- Nobody has a vcore. -/
theorem holding_of_bare (h : ∀ b ∈ (n.vnf v).blocks, b.vcores = []) : n.Holding v := by
  intro tx pid hpid
  have hnobody : n.workers v tx pid = ∅ := by
    apply Set.eq_empty_of_forall_notMem
    rintro w ⟨b, hb, -, hlt⟩
    rw [h b (List.mem_of_getElem? hb)] at hlt
    exact absurd hlt (Nat.not_lt_zero _)
  rw [hnobody]
  exact ⟨0, tickets_empty _ _ _, fun _ _ => Nat.zero_le _⟩

theorem Filled.holding (h : n.Filled v) : n.Holding v := by
  intro tx pid hpid
  cases hslot : (n.vnf v).ports[pid] with
  | none => exact absurd (hslot ▸ List.getElem_mem hpid) h.full
  | some p =>
    have hp : (n.vnf v).ports[pid]? = some (some p) := by
      rw [List.getElem?_eq_getElem hpid, hslot]
    refine ⟨_, (h.drawn tx pid p hp).tickets, fun q hq => ?_⟩
    rw [hp] at hq
    cases hq
    exact le_rfl

/-- The blocks are what they were, and a port in a slot was there before or covers its ids. -/
theorem Holding.reslot (h : n.Holding v) (hblock : ∀ k, (n'.block? v k).map core = (n.block? v k).map core)
    (hlen : (n'.vnf v).nPorts = (n.vnf v).nPorts)
    (hslot : ∀ pid p, (n'.vnf v).ports[pid]? = some (some p) → n'.Covers v pid p ∨
      (n.vnf v).ports[pid]? = some (some p) ∧ ∀ tx, (n'.port p).nAcc tx = (n.port p).nAcc tx) : n'.Holding v := by
  intro tx pid hpid
  obtain ⟨c, htickets, hc⟩ := h tx pid (hlen ▸ hpid)
  rw [← aid_same hblock, ← workers_same hblock] at htickets
  by_cases hcovers : ∃ p, (n'.vnf v).ports[pid]? = some (some p) ∧ n'.Covers v pid p
  · obtain ⟨p, hp, hcovers⟩ := hcovers
    refine ⟨_, htickets.below fun w hw => hcovers.lt hw, fun q hq => ?_⟩
    rw [hp] at hq
    cases hq
    exact le_rfl
  · refine ⟨c, htickets, fun p hp => ?_⟩
    obtain ⟨hold, hacc⟩ := (hslot pid p hp).resolve_left fun hcov => hcovers ⟨p, hp, hcov⟩
    rw [hacc tx]
    exact hc p hold

theorem Holding.dettached (h : n.Holding v) (pid p : Nat) : (n.dettached v pid p).Holding v := by
  have hports : ((n.dettached v pid p).vnf v).ports = (n.vnf v).ports.set pid none := by
    simp [Nfvi.dettached, editVnf, Nfvi.editPort]
  refine h.reslot (fun k => ?_) ?_ fun q p' hp' => .inr ⟨?_, fun tx => ?_⟩
  · simp [Nfvi.dettached, editVnf, Nfvi.editPort, block?]
  · rw [Vnf.nPorts, hports, List.length_set, Vnf.nPorts]
  · rw [hports] at hp'
    by_cases hq : pid = q
    · subst hq
      rw [List.getElem?_set] at hp'
      simp at hp'
    · rwa [List.getElem?_set_ne hq] at hp'
  · exact nAcc_editPort (f := VnfPort.dettachVnf) (fun _ _ => rfl) n p p' tx

theorem Holding.attached (h : n.Holding v) (hcovers : n.Covers v pid p) : (n.attached v pid p).Holding v := by
  have hports : ((n.attached v pid p).vnf v).ports = (n.vnf v).ports.set pid (some p) := by
    simp [Nfvi.attached, editVnf, Nfvi.editPort]
  have hacc (q : Nat) (tx : Bool) : ((n.attached v pid p).port q).nAcc tx = (n.port q).nAcc tx :=
    nAcc_editPort (f := VnfPort.attachVnf v) (fun _ _ => rfl) n p q tx
  have hblocks : ((n.attached v pid p).vnf v).blocks = (n.vnf v).blocks := by
    simp [Nfvi.attached, editVnf, Nfvi.editPort]
  refine h.reslot (fun k => ?_) ?_ fun q p' hp' => ?_
  · rw [block?, hblocks, block?]
  · rw [Vnf.nPorts, hports, List.length_set, Vnf.nPorts]
  · rw [hports] at hp'
    by_cases hq : pid = q
    · subst hq
      rw [List.getElem?_set] at hp'
      obtain rfl : p' = p := by
        split_ifs at hp' <;> simp_all
      left
      unfold Covers
      rw [hblocks, show ((n.attached v pid p').port p').nRxacc = (n.port p').nRxacc from hacc p' false,
        show ((n.attached v pid p').port p').nTxacc = (n.port p').nTxacc from hacc p' true]
      exact hcovers
    · rw [List.getElem?_set_ne hq] at hp'
      exact .inr ⟨hp', hacc p'⟩

/-- The block's vcores are new ones, and have drawn ids that nobody has held before. -/
theorem Holding.setCoremask (h : n.Holding v) (hdistinct : n.Distinct v) (hpolls : n.PollsIn v)
    (hb : n.block? v bid = some b) : Meets (Nfvi.setCoremask v bid mask) n (fun _ n' => n'.Holding v) E := by
  refine Proc.meets_bind (vnfAt_meets v n) ?_
  rintro x n₁ ⟨rfl, rfl⟩
  by_cases hfull : none ∈ (n₁.vnf v).ports
  · rw [if_pos hfull]
    exact Proc.meets_pure h
  rw [if_neg hfull]
  refine Proc.meets_bind (blockAt_meets hb) ?_
  rintro c n₂ ⟨rfl, rfl⟩
  have hwiring := wiring_remasked n₂ v bid mask
  have hports := ports_of_wiring hwiring v
  have hdraws := drawing_draws (E := E) (rows_remasked hb mask)
  rw [nPorts_remasked] at hdraws
  refine Proc.meets_bind (hdraws.blockSetCoremask hb (hpolls bid c hb) (drawing_start _ v bid)) fun _ n' hd => ?_
  refine Proc.meets_pure fun tx pid hpid => ?_
  have hports' := (ports_of_wiring hd.wiring v).trans hports
  rw [Vnf.nPorts, hports'] at hpid
  cases hslot : (n₂.vnf v).ports[pid] with
  | none => exact absurd (hslot ▸ List.getElem_mem hpid) hfull
  | some p =>
    have hp : (n₂.vnf v).ports[pid]? = some (some p) := by
      rw [List.getElem?_eq_getElem hpid, hslot]
    have hother (k : Nat) (hk : k ≠ bid) : (n'.block? v k).map Block.form = (n₂.block? v k).map Block.form := by
      rw [hd.form, block?_remasked hb, if_neg hk]
    have hown : (n'.block? v bid).map Block.form =
        some (c.cls, mask, (coresOf mask).map fun l => (l, (n₂.vnf v).nPorts, (n₂.vnf v).nPorts)) := by
      rw [hd.form, block?_remasked hb, if_pos rfl, Option.map_some, remasked_form]
    obtain ⟨b', hb', hform⟩ := Option.map_eq_some_iff.mp hown
    simp only [Block.form, Prod.mk.injEq] at hform
    have hlen : b'.vcores.length = popcnt32 mask := by
      simpa [popcnt32] using congrArg List.length hform.2.2
    rw [workers_of_forms hother hb' hform.1 hlen]
    -- what the other blocks hold is older than what the block has drawn
    obtain ⟨c₀, htickets, hle⟩ := h tx pid hpid
    have hold : Tickets (n'.aid tx v pid) {w | w ∈ n₂.workers v tx pid ∧ w.1 ≠ bid} 0 ((n₂.port p).nAcc tx) := by
      refine ((htickets.subset fun w hw => hw.1).mono (hle p hp)).congr fun w hw => ?_
      rw [hd.other tx pid w hw.2, aid, block?_remasked hb, if_neg hw.2, aid]
    have hdeals := hd.dealt (hdistinct.of_wiring hwiring) tx pid p (hports ▸ hp)
    refine ⟨_, hold.union hdeals.tickets (Nat.zero_le _) hdeals.le, fun q hq => ?_⟩
    rw [hports', hp] at hq
    cases hq
    exact le_rfl

/-- With an empty slot the first block does not come out of its reset. -/
theorem Holding.reset (h : n.Holding v) (hdistinct : n.Distinct v) (hpolls : n.PollsIn v) :
    Meets (Nfvi.reset v) n (fun _ n' => n'.Holding v) E := by
  have hE : ¬n.PollsIn v → ∀ t, E t := fun hno => absurd hpolls hno
  by_cases hfull : none ∈ (n.vnf v).ports
  · refine Proc.meets_bind (vnfAt_meets v n) ?_
    rintro x n₁ ⟨rfl, rfl⟩
    refine Proc.meets_bind (Q := fun _ n' => n' = n₁) ?_ fun _ n' hn' => ?_
    · have hround (k : Nat) (hk : k < (n₁.vnf v).nBlocks) : Meets (blockReset v k >>= fun _ =>
          Nfvi.setCoremask v k 0 >>= fun _ => pure ()) n₁ (fun _ _ => False) E := by
        have hb : n₁.block? v k = some ((n₁.vnf v).blocks.get ⟨k, hk⟩) := List.getElem?_eq_getElem hk
        have hmeets := blockReset_meets (E := E) (fun hno => absurd (hpolls k _ hb) hno) hb
        obtain ⟨pid, hpid, hnone⟩ := List.getElem_of_mem hfull
        have hno : n₁.NoPort v pid := fun p hp => by
          rw [List.getElem?_eq_getElem hpid, hnone] at hp
          cases hp
        refine Proc.meets_bind (Q := fun _ _ => False) ⟨fun a t hret => ?_, hmeets.2⟩ fun _ _ hf => hf.elim
        exact blockReset_stuck hno hpid a t hret
      refine (Proc.meets_forRange (fun k n' => n' = n₁ ∧ k = 0) ⟨rfl, rfl⟩ ?_).weaken fun _ _ hn' => hn'.1
      rintro k hk t ⟨rfl, rfl⟩
      exact (hround 0 hk).weaken fun _ _ hf => hf.elim
    · rw [if_pos hfull]
      exact Proc.meets_pure (hn' ▸ h)
  · exact (reset_meets_full hE hfull hdistinct).weaken fun _ _ hfilled => hfilled.holding

/-! ### Requests -/

/-- The port that the request would put into slot `pid` of `v`. -/
def plugs (n : Nfvi) (v : Nat) (r : Request) : Option (Nat × Nat) :=
  match r with
  | .slotPut iname pid pname =>
    if n.Open (n.findVnf iname) v ∧ 0 ≤ pid ∧ (n.vnf v).ports[pid.toNat]? = some none then
      (pname.bind n.findPort).bind fun p => if (n.port p).isAttachedVnf then none else some (pid.toNat, p)
    else none
  | _ => none

theorem Holding.slotPut (h : n.Holding v) {iname : String} {slot : Int} {pname : Option String}
    (hv : n.findVnf iname = some v) (hcovers : ∀ x ∈ n.plugs v (.slotPut iname slot pname), n.Covers v x.1 x.2) :
    Meets (Nfvi.slotPut iname slot pname) n (fun _ n' => n'.Holding v) fun n' => n'.Holding v := by
  refine Proc.meets_get_bind ?_
  rw [hv]
  dsimp only
  split_ifs with hpid hrun
  · exact Proc.meets_pure h
  · cases pname with
    | none => exact Proc.meets_throw h
    | some name =>
      refine Proc.meets_bind_ret rfl ?_
      split
      · exact Proc.meets_pure h
      · next p hp =>
        split_ifs with hattached
        · exact Proc.meets_pure h
        · have hmeets := attachPort_meets v slot.toNat p n
          refine Proc.meets_bind (Q := fun _ n' => n'.Holding v) ⟨fun ret n' hret => ?_, fun w n' hw => ?_⟩
            fun ret n' hn' => ?_
          · rcases hmeets.1 ret n' hret with rfl | ⟨-, -, hempty, -, rfl⟩
            · exact h
            · have hpos : 0 ≤ slot := by
                simp only [validPid, Bool.and_eq_true, decide_eq_true_eq] at hpid
                exact hpid.1
              have hopen : n.Open (n.findVnf iname) v := ⟨hv, by simpa using hrun⟩
              apply h.attached
              refine hcovers (slot.toNat, p) ?_
              simp [plugs, hopen, hpos, hempty, hp, hattached]
          · exact hmeets.2 w n' hw ▸ h
          · split_ifs <;> exact Proc.meets_pure hn'
  · exact Proc.meets_pure h

theorem Holding.slotDelete (h : n.Holding v) {iname : String} {slot : Int} (hv : n.findVnf iname = some v) :
    Meets (Nfvi.slotDelete iname slot) n (fun _ n' => n'.Holding v) fun n' => n'.Holding v := by
  refine Proc.meets_get_bind ?_
  rw [hv]
  dsimp only
  split_ifs
  · exact Proc.meets_pure h
  · have hmeets := dettachPort_meets v slot.toNat n
    refine Proc.meets_bind (Q := fun _ n' => n'.Holding v) ⟨fun ret n' hret => ?_, fun w n' hw => ?_⟩
      fun ret n' hn' => ?_
    · rcases hmeets.1 ret n' hret with rfl | ⟨p, -, -, -, rfl⟩
      · exact h
      · exact h.dettached slot.toNat p
    · exact hmeets.2 w n' hw ▸ h
    · split_ifs <;> exact Proc.meets_pure hn'
  · exact Proc.meets_pure h

theorem Holding.resetPut (h : n.Holding v) (hdistinct : n.Distinct v) (hpolls : n.PollsIn v) {iname : String}
    (hv : n.findVnf iname = some v) :
    Meets (Nfvi.resetPut iname) n (fun _ n' => n'.Holding v) fun n' => n'.Holding v := by
  refine Proc.meets_get_bind ?_
  rw [hv]
  dsimp only
  split_ifs
  · exact Proc.meets_pure h
  · refine Proc.meets_bind (h.reset hdistinct hpolls) fun ret n' hn' => ?_
    split_ifs <;> exact Proc.meets_pure hn'

theorem writesCounters_within {R : Nfvi → Nfvi → Prop} [IsPreorder Nfvi R] (th : Native Task) {r : Request}
    (hr : writesCounters r)
    (h : ∀ v, n.blockGate r = some v → (n.vnf v).isRunning = false →
      Proc.Within R (Nfvi.reset v) ∧ ∀ bid mask, Proc.Within R (Nfvi.setCoremask v bid mask)) :
    Meets (handle th r) n (fun _ => R n) (R n) := by
  cases r with
  | coremaskPut iname blockId mask => exact coremaskPut_within th blockId mask fun v hv hrun => (h v hv hrun).2
  | resetPut iname => exact resetPut_within fun v hv hrun => (h v hv hrun).1
  | _ => exact absurd hr id

/-- A request that asks for another VNF's blocks leaves the counters of the ports of `v` alone. -/
theorem acc_handle (hatt : n.wiring.Attached) (hv : v ∈ n.vnfs) (th : Native Task) {r : Request}
    (hgate : n.blockGate r ≠ some v) :
    Meets (handle th r) n
      (fun _ n' => ∀ p, some p ∈ (n.vnf v).ports → ∀ tx, (n'.port p).nAcc tx = (n.port p).nAcc tx)
      fun n' => ∀ p, some p ∈ (n.vnf v).ports → ∀ tx, (n'.port p).nAcc tx = (n.port p).nAcc tx := by
  by_cases hr : writesCounters r
  · cases hw : n.blockGate r with
    | none =>
      have hsame : Meets (handle th r) n (fun _ n' => id n' = id n) fun n' => id n' = id n :=
        writesCounters_within (R := fun n n' => id n' = id n) th hr fun w hgate => by rw [hw] at hgate; cases hgate
      refine ⟨fun nx n' h p _ tx => ?_, fun x n' h p _ tx => ?_⟩
      · rw [show n' = n from hsame.1 nx n' h]
      · rw [show n' = n from hsame.2 x n' h]
    | some w =>
      have htoll : Meets (handle th r) n (fun _ => Toll w n) (Toll w n) := by
        refine writesCounters_within th hr fun u hu _ => ?_
        cases hw.symm.trans hu
        exact ⟨(allowsOwn_toll w).reset, (allowsOwn_toll w).setCoremask⟩
      have hne : v ≠ w := fun heq => hgate (heq ▸ hw)
      exact ⟨fun nx n' h => (htoll.1 nx n' h).acc_others hatt hv (mem_of_blockGate hw) hne,
        fun x n' h => (htoll.2 x n' h).acc_others hatt hv (mem_of_blockGate hw) hne⟩
  · have hstill := still_handle th hr n
    exact ⟨fun nx n' h p hp => (hstill.1 nx n' h).acc p (lt_of_slot hatt hv hp),
      fun w n' h p hp => (hstill.2 w n' h).acc p (lt_of_slot hatt hv hp)⟩

/-- A request that asks for others. -/
theorem Holding.others (h : n.Holding v) (hatt : n.wiring.Attached) (hv : v ∈ n.vnfs) (th : Native Task) {r : Request}
    (hslot : n.slotGate r ≠ some v) (hblock : n.blockGate r ≠ some v) :
    Meets (handle th r) n (fun _ n' => n'.Holding v) fun n' => n'.Holding v := by
  have hkept := kept_handle th r n
  have hacc := acc_handle hatt hv th hblock
  have hold : ¬n.next ≤ v := Nat.not_le.mpr (hatt.vnf_lt v hv)
  have hjoin {n' : Nfvi} (hk : Kept (n.Open (n.slotGate r)) (n.Open (n.blockGate r)) (writesTables r) n n')
      (hacc : ∀ p, some p ∈ (n.vnf v).ports → ∀ tx, (n'.port p).nAcc tx = (n.port p).nAcc tx) : n'.Holding v := by
    have hslots := (hk.slots v).resolve_right (not_or_intro (fun hopen => hslot hopen.1) hold)
    have hblocks := (hk.blocks v).resolve_right (not_or_intro (fun hopen => hblock hopen.1) fun hnew => hold hnew.1)
    refine h.reslot (fun k => ?_) (congrArg List.length hslots) fun pid p hp => ?_
    · rw [block?, block?, hblocks]
    · rw [hslots] at hp
      exact .inr ⟨hp, hacc p (List.mem_of_getElem? hp)⟩
  exact ⟨fun nx n' hret => hjoin (hkept.1 nx n' hret) (hacc.1 nx n' hret),
    fun w n' hw => hjoin (hkept.2 w n' hw) (hacc.2 w n' hw)⟩

/-- **Every request keeps the ids good**, unless it plugs a port that does not cover them. -/
theorem Holding.handle (h : n.Holding v) (hatt : n.wiring.Attached) (hv : v ∈ n.vnfs) (hpolls : n.PollsIn v)
    (th : Native Task) {r : Request} (hcovers : ∀ x ∈ n.plugs v r, n.Covers v x.1 x.2) :
    Meets (Nfvi.handle th r) n (fun _ n' => n'.Holding v) fun n' => n'.Holding v := by
  have hdistinct : n.Distinct v := hatt.slot_inj v hv
  by_cases hslot : n.slotGate r = some v
  · cases r with
    | slotPut iname pid pname => exact h.slotPut hslot hcovers
    | slotDelete iname pid => exact h.slotDelete hslot
    | _ => cases hslot
  · by_cases hblock : n.blockGate r = some v
    · cases r with
      | coremaskPut iname blockId mask =>
        apply coremaskPut_meets h
        intro u bid b m hu hb _
        cases hu.symm.trans hblock
        exact h.setCoremask hdistinct hpolls hb
      | resetPut iname => exact h.resetPut hdistinct hpolls hblock
      | _ => cases hblock
    · exact h.others hatt hv th hslot hblock

end Holding

/-! ### Runs -/

/-- VNF `v` holds its ids well if it is there, and nothing if it is still to come. -/
structure Tended (n : Nfvi) (v : Nat) : Prop where
  attached : n.wiring.Attached
  polls : ∀ w, n.PollsIn w
  bare : n.next ≤ v → ∀ b ∈ (n.vnf v).blocks, b.vcores = []
  holding : v ∈ n.vnfs → n.Holding v

section Tended
variable {n n' : Nfvi} {v : Nat}

theorem polls_handle (th : Native Task) {r : Request} (hpolls : ∀ w, n.PollsIn w) :
    Meets (handle th r) n (fun _ n' => ∀ w, n'.PollsIn w) fun n' => ∀ w, n'.PollsIn w := by
  by_cases hr : writesCounters r
  · have hown : Meets (handle th r) n (fun _ n' => (∀ v, n.PollsIn v) → ∀ v, n'.PollsIn v)
        fun n' => (∀ v, n.PollsIn v) → ∀ v, n'.PollsIn v :=
      writesCounters_within (R := fun n n' => (∀ v, n.PollsIn v) → ∀ v, n'.PollsIn v) th hr fun w _ _ => by
        have hallows : AllowsOwn w fun n n' => (∀ v, n.PollsIn v) → ∀ v, n'.PollsIn v :=
          ⟨fun n i q f hslot hf => ((allowsOwn_toll w).port n i q f hslot hf).polls,
            fun n bid f hf hfit => ((allowsOwn_toll w).block n bid f hf hfit).polls⟩
        exact ⟨hallows.reset, hallows.setCoremask⟩
    exact ⟨fun nx n' h => hown.1 nx n' h hpolls, fun x n' h => hown.2 x n' h hpolls⟩
  · have hstill := still_handle th hr n
    exact ⟨fun nx n' h => (hstill.1 nx n' h).polls hpolls, fun x n' h => (hstill.2 x n' h).polls hpolls⟩

/-- A VNF that is there now was there, or is new. -/
theorem mem_vnfs_of_moved {g : Wiring.Guard} {w w' : Wiring} (h : w.Moved g w') {v : Nat} (hv : v ∈ w'.vnfs) :
    v ∈ w.vnfs ∨ v = w.next := by
  rcases h with rfl | hm
  · exact .inl hv
  · cases hm with
    | addVnf => exact (List.mem_append.mp hv).imp_right List.mem_singleton.mp
    | delVnf => exact .inl (List.mem_of_mem_erase hv)
    | _ => exact .inl hv

theorem Tended.handle (h : n.Tended v) (th : Native Task) {r : Request}
    (hcovers : ∀ x ∈ n.plugs v r, n.Covers v x.1 x.2) :
    Meets (Nfvi.handle th r) n (fun _ n' => n'.Tended v) fun n' => n'.Tended v := by
  have hmoves := moves_handle th (admits_trivial n r)
  have hkept := kept_handle th r n
  have hpolls := polls_handle th (r := r) h.polls
  have hjoin {n' : Nfvi} (hm : Wiring.Moved .trivial n.wiring n'.wiring)
      (hk : Kept (n.Open (n.slotGate r)) (n.Open (n.blockGate r)) (writesTables r) n n')
      (hpolls : ∀ w, n'.PollsIn w) (hholds : v ∈ n.vnfs → n'.Holding v) : n'.Tended v := by
    have hbare (hnew : n.next ≤ v) : ∀ b ∈ (n'.vnf v).blocks, b.vcores = [] := by
      rcases hk.blocks v with heq | ⟨hgate, -⟩ | ⟨-, hun⟩
      · rw [heq]
        exact h.bare hnew
      · exact absurd (h.attached.vnf_lt v (mem_of_blockGate hgate)) (Nat.not_lt.mpr hnew)
      · exact fun b hb => (hun b hb).vcores
    refine ⟨h.attached.moved hm, hpolls, fun hnew => hbare (hk.next.trans hnew), fun hv => ?_⟩
    rcases mem_vnfs_of_moved hm hv with hold | hnew
    · exact hholds hold
    · exact holding_of_bare (hbare hnew.ge)
  have hholds (hv : v ∈ n.vnfs) := (h.holding hv).handle h.attached hv (h.polls v) th hcovers
  exact ⟨fun nx n' hret => hjoin (hmoves.1 nx n' hret) (hkept.1 nx n' hret) (hpolls.1 nx n' hret)
      fun hv => (hholds hv).1 nx n' hret,
    fun w n' hw => hjoin (hmoves.2 w n' hw) (hkept.2 w n' hw) (hpolls.2 w n' hw) fun hv => (hholds hv).2 w n' hw⟩

theorem Tended.editBlock (h : n.Tended v) (w bid : Nat) {f : Block → Block} (hf : ∀ b, core (f b) = core b) :
    (n.editBlock w bid f).Tended v := by
  have hwiring := wiring_editBlock n w bid f
  have hports (u : Nat) := ports_of_wiring hwiring u
  refine ⟨hwiring ▸ h.attached, fun u k b hb portId hcls => ?_, fun hnew b hb => ?_, fun hv => ?_⟩
  · obtain ⟨c, hc, hcls', -⟩ := core_eq (core_editBlock hf n w u k) hb
    rw [Vnf.nPorts, hports]
    exact h.polls u k c hc portId (hcls' ▸ hcls)
  · obtain ⟨k, hk⟩ := List.getElem?_of_mem hb
    obtain ⟨c, hc, -, -, hvcores⟩ := core_eq (core_editBlock hf n w v k) hk
    rw [hvcores]
    exact h.bare hnew c (List.mem_of_getElem? hc)
  · refine (h.holding hv).reslot (core_editBlock hf n w v) (congrArg List.length (hports v)) fun pid p hp => ?_
    rw [hports] at hp
    exact .inr ⟨hp, fun _ => rfl⟩

end Tended

end Nfvi

end Susanow
