import Susanow.Nfvi.Access

/-! Whether the lcores of a coremask are free.

`coremask_is_valid` is to say whether every lcore of a mask exists and waits. As
`(0x1<<i) & coremask != 0` reads, the mask is compared with 0 first, and the shifted bit
meets the answer, which is 0 or 1: only round 0 ever looks at an lcore. -/
namespace Susanow.Nfvi
open Proc (Keeps Within Meets)

/-- Every lcore of the mask is there and waits. -/
def Free (th : Native Task) (coremask : BitVec 64) : Prop :=
  ∀ i, coremask.getLsbD i = true → i < th.nLcore ∧ th.lcore i = .wait

/-- Lcore 0 is there and does not wait, and the mask has a bit. -/
def ZeroBusy (th : Native Task) (coremask : BitVec 64) : Prop :=
  coremask ≠ 0 ∧ 0 < th.nLcore ∧ th.lcore 0 ≠ .wait

instance (th : Native Task) (coremask : BitVec 64) : Decidable (ZeroBusy th coremask) :=
  inferInstanceAs (Decidable (_ ∧ _ ∧ _))

/-! ### What the loop computes -/

/-- A bit other than the lowest is not in a truth value. -/
theorem shifted_and_one : ∀ i < 32, 0 < i → 1#32 <<< i &&& 1 = 0 := by decide

theorem coremaskRounds_later (th : Native Task) (coremask : BitVec 64) {i : Nat} (hi : 0 < i) (left : Nat)
    (n : Nfvi) :
    coremaskRounds th coremask i left n =
      if left = 0 ∨ i + left ≤ 32 then .ret true n else .crash .shift := by
  induction left generalizing i with
  | zero => simp [coremaskRounds]
  | succ left ih =>
    rw [coremaskRounds]
    by_cases hshift : 32 ≤ i
    · rw [if_pos hshift, if_neg (by omega)]
      rfl
    · have hbit : ¬(1#32 <<< i &&& (if coremask ≠ 0 then 1 else 0) ≠ 0) := by
        split_ifs
        · simpa using shifted_and_one i (by omega) hi
        · simp
      rw [if_neg hshift, if_neg hbit, ih (Nat.succ_pos i)]
      by_cases hle : i + (left + 1) ≤ 32
      · rw [if_pos (.inr (by omega)), if_pos (.inr hle)]
      · by_cases hleft : left = 0
        · omega
        · rw [if_neg (by omega), if_neg (by omega)]

theorem coremaskIsValid_run (th : Native Task) (coremask : BitVec 64) (n : Nfvi) :
    coremaskIsValid th coremask n =
      if ZeroBusy th coremask then .ret false n
      else if th.nLcore ≤ 32 then .ret true n else .crash .shift := by
  rw [coremaskIsValid]
  cases hn : th.nLcore with
  | zero => simp [coremaskRounds, ZeroBusy, hn]
  | succ k =>
    have hlater := coremaskRounds_later th coremask Nat.one_pos k n
    have hk : (k = 0 ∨ 1 + k ≤ 32) ↔ k + 1 ≤ 32 := by omega
    simp only [hk] at hlater
    have hbit : 1#32 <<< 0 &&& (if coremask ≠ 0 then 1 else 0) ≠ 0 ↔ coremask ≠ 0 := by
      by_cases hmask : coremask = 0
      · simp [hmask]
      · rw [if_pos hmask]
        exact iff_of_true (by decide) hmask
    rw [coremaskRounds, if_neg (by decide)]
    simp only [hbit]
    by_cases hmask : coremask = 0
    · have hzero : ¬ZeroBusy th coremask := fun h => h.1 hmask
      rw [if_neg (not_not.mpr hmask), if_neg hzero]
      exact hlater
    · rw [if_pos hmask]
      cases hl : th.lcore 0 with
      | wait =>
        have hzero : ¬ZeroBusy th coremask := fun h => h.2.2 hl
        rw [if_neg hzero]
        exact hlater
      | running t pc =>
        have hzero : ZeroBusy th coremask := ⟨hmask, by omega, by simp [hl]⟩
        rw [if_pos hzero]
        rfl
      | finished t =>
        have hzero : ZeroBusy th coremask := ⟨hmask, by omega, by simp [hl]⟩
        rw [if_pos hzero]
        rfl

/-- The answer is the one that is asked for. -/
def Judges (th : Native Task) (coremask : BitVec 64) (n : Nfvi) : Prop :=
  ∃ b, coremaskIsValid th coremask n = .ret b n ∧ (b = true ↔ Free th coremask)

theorem judges_iff (th : Native Task) (coremask : BitVec 64) (n : Nfvi) :
    Judges th coremask n ↔
      if ZeroBusy th coremask then ¬Free th coremask else th.nLcore ≤ 32 ∧ Free th coremask := by
  rw [Judges, coremaskIsValid_run]
  split_ifs with hzero hn
  · simp
  · simp [hn]
  · simp [hn]

/-! ### What a block is handed -/

/-- The lcores of a block's vcores. -/
def lcoresAt (v bid : Nat) (n : Nfvi) : Option (List Nat) :=
  (n.block? v bid).map fun b => b.vcores.map Vcore.lcoreId

/-- The mask of a block with the lcores of its vcores. -/
def coresAt (n : Nfvi) (v bid : Nat) : Option (BitVec 32 × List Nat) :=
  (n.block? v bid).map fun b => (b.coremask, b.vcores.map Vcore.lcoreId)

theorem lcoresAt_eq (v bid : Nat) (n : Nfvi) : lcoresAt v bid n = (n.coresAt v bid).map Prod.snd := by
  rw [lcoresAt, coresAt, Option.map_map]
  rfl

theorem coresAt_editBlock {n : Nfvi} {v bid : Nat} {f : Block → Block}
    (hf : ∀ b, n.block? v bid = some b → (f b).coremask = b.coremask ∧
      (f b).vcores.map Vcore.lcoreId = b.vcores.map Vcore.lcoreId) :
    (n.editBlock v bid f).coresAt = n.coresAt := by
  funext w k
  rw [coresAt, block?_editBlock, coresAt]
  split_ifs with h
  · obtain ⟨rfl, rfl⟩ := h
    cases hb : n.block? w k with
    | none => rfl
    | some b => exact congrArg some (Prod.ext (hf b hb).1 (hf b hb).2)
  · rfl

/-- A vcore is written back with its lcore. -/
theorem map_lcoreId_set {vcores : List Vcore} {i : Nat} {vc vc' : Vcore} (h : vcores[i]? = some vc)
    (hid : vc'.lcoreId = vc.lcoreId) : (vcores.set i vc').map Vcore.lcoreId = vcores.map Vcore.lcoreId := by
  obtain ⟨hlt, rfl⟩ := List.getElem?_eq_some_iff.mp h
  rw [List.map_set, hid]
  apply List.ext_getElem (by simp)
  intro j hj hj'
  rw [List.getElem_set]
  split
  · next hij =>
    subst hij
    simp
  · rfl

theorem vcoreAt_ret {v bid i : Nat} {vc : Vcore} {n n' : Nfvi} (h : vcoreAt v bid i n = .ret vc n') :
    n' = n ∧ ∃ b, n.block? v bid = some b ∧ b.vcores[i]? = some vc := by
  obtain ⟨b, n₁, hb, hvc⟩ := Proc.bind_eq_ret h
  obtain ⟨rfl, hb⟩ := blockAt_ret hb
  cases hi : b.vcores[i]? with
  | none =>
    rw [hi] at hvc
    cases hvc
  | some vc' =>
    rw [hi] at hvc
    cases hvc
    exact ⟨rfl, b, hb, hi⟩

/-- The write of an access id, to receive or to send. -/
theorem keeps_cores_write {v bid i : Nat} {P : Vcore → Prop} [∀ vc, Decidable (P vc)] {g : Vcore → Vcore}
    (hg : ∀ vc, (g vc).lcoreId = vc.lcoreId) :
    Keeps coresAt (vcoreAt v bid i >>= fun vc =>
      if P vc then modifyBlock v bid fun b => {b with vcores := b.vcores.set i (g vc)}
      else Proc.throw "fixed_size_vector::at") := by
  intro n
  have hread : Keeps coresAt (vcoreAt v bid i) := within_vcoreAt v bid i
  refine Proc.meets_bind_of_ret (hread n).2 fun vc n₁ hvc => ?_
  obtain ⟨rfl, b, hb, hi⟩ := vcoreAt_ret hvc
  split_ifs
  · refine Proc.meets_modify (coresAt_editBlock fun c hc => ?_)
    rw [hb] at hc
    cases hc
    exact ⟨rfl, map_lcoreId_set hi (hg vc)⟩
  · exact Proc.meets_throw rfl

theorem keeps_cores_grantRx (v bid i pid : Nat) : Keeps coresAt (grantRx v bid i pid) := by
  refine Proc.within_bind ?_ fun rxaid => keeps_cores_write (g := fun vc =>
    {vc with portRxAcc := vc.portRxAcc.set pid rxaid}) fun _ => rfl
  refine Proc.within_bind (within_slotAt v pid) fun p => Proc.within_bind (within_portAt p) fun port =>
    Proc.within_bind (within_blockAt v bid) fun b => Proc.within_ite ?_ (Proc.within_crash _)
  refine Proc.within_bind (Proc.within_modify fun n => coresAt_editBlock fun _ _ => ⟨rfl, rfl⟩) fun _ => ?_
  exact Proc.within_bind (Proc.within_modify fun _ => rfl) fun _ => Proc.within_pure _

theorem keeps_cores_grantTx (v bid i pid : Nat) : Keeps coresAt (grantTx v bid i pid) := by
  refine Proc.within_bind ?_ fun txaid => keeps_cores_write (g := fun vc =>
    {vc with portTxAcc := vc.portTxAcc.set pid txaid}) fun _ => rfl
  refine Proc.within_bind (within_slotAt v pid) fun p => Proc.within_bind (within_portAt p) fun port => ?_
  exact Proc.within_bind (Proc.within_modify fun _ => rfl) fun _ => Proc.within_pure _

theorem keeps_cores_setCoremaskImpl (v bid : Nat) (coremask : BitVec 32) :
    Keeps coresAt (setCoremaskImpl v bid coremask) := by
  have hall (nPorts nVcores : Nat) : Keeps coresAt (requestAllPorts v bid nPorts nVcores) :=
    Proc.within_forRange fun i => Proc.within_forRange fun pid =>
      Proc.within_bind (keeps_cores_grantRx v bid i pid) fun _ => keeps_cores_grantTx v bid i pid
  refine Proc.within_bind (within_vnfAt v) fun x => Proc.within_bind (within_blockAt v bid) fun b => ?_
  split
  · exact hall _ _
  · exact hall _ _
  · exact hall _ _
  · exact hall _ _
  · exact Proc.within_forRange fun i => Proc.within_bind (keeps_cores_grantRx v bid i _) fun _ =>
      Proc.within_forRange fun pid => keeps_cores_grantTx v bid i pid

/-- A coremask that was set is the block's, lcore for lcore. -/
theorem lcoresAt_of_setCoremask {v bid : Nat} {coremask : BitVec 32} {ret : Int} {n n' : Nfvi}
    (h : setCoremask v bid coremask n = .ret ret n') (hret : ¬ret < 0) :
    lcoresAt v bid n' = some (coresOf coremask) := by
  obtain ⟨x, n₁, hx, hrun⟩ := Proc.bind_eq_ret h
  obtain ⟨rfl, rfl⟩ := vnfAt_ret hx
  rw [Proc.ite_run] at hrun
  split_ifs at hrun with hslot
  · cases hrun
    exact absurd (by decide : (-1 : Int) < 0) hret
  · obtain ⟨b, n₂, hblock, hafter⟩ := Proc.bind_eq_ret hrun
    obtain ⟨rfl, hb⟩ := blockAt_ret hblock
    obtain ⟨⟨⟩, n₃, hset, hpure⟩ := Proc.bind_eq_ret hafter
    cases hpure
    obtain ⟨x, n₄, hx', himpl⟩ := Proc.bind_eq_ret hset
    obtain ⟨rfl, rfl⟩ := vnfAt_ret hx'
    have himpl : setCoremaskImpl v bid coremask (n₄.editBlock v bid (remasked (n₄.vnf v).nPorts coremask)) =
        .ret () n' := himpl
    have hown : (n₄.editBlock v bid (remasked (n₄.vnf v).nPorts coremask)).block? v bid =
        some (remasked (n₄.vnf v).nPorts coremask b) := by
      rw [block?_editBlock, if_pos ⟨rfl, rfl⟩, block?, hb, Option.map_some]
    have hkept : n'.coresAt = (n₄.editBlock v bid (remasked (n₄.vnf v).nPorts coremask)).coresAt :=
      (keeps_cores_setCoremaskImpl v bid coremask _).1 () n' himpl
    rw [lcoresAt_eq, hkept, coresAt, hown]
    simp [remasked, Vcore.init, Function.comp_def]

/-- Whatever state it finds, a PUT of the mask that reports success leaves the block with
lcores that are there and wait. -/
def HandsFree (th : Native Task) (coremask : BitVec 32) : Prop :=
  ∀ (n n' : Nfvi) (iname : String) (blockId : Int) (msg : String) (v : Nat), n.findVnf iname = some v →
    coremaskPut th iname blockId (some coremask) n = .ret (.done (.reply ⟨true, msg⟩)) n' →
      ∃ lcores, lcoresAt v blockId.toNat n' = some lcores ∧
        ∀ l ∈ lcores, l < th.nLcore ∧ th.lcore l = .wait

theorem handsFree_of_judges {th : Native Task} {coremask : BitVec 32}
    (h : ∀ n, Judges th (coremask.setWidth 64) n) : HandsFree th coremask := by
  intro n n' iname blockId msg v hv hput
  rw [coremaskPut, Proc.get_bind, hv] at hput
  simp only [Proc.ite_run] at hput
  split_ifs at hput
  · cases hput
  · cases hput
  obtain ⟨b, n₁, hb, hput⟩ := Proc.bind_eq_ret hput
  rw [Proc.ite_run] at hput
  split_ifs at hput
  · cases hput
  obtain ⟨valid, hrun, hfree⟩ := h n₁
  simp only [field] at hput
  rw [Proc.pure_bind, Proc.bind_ret hrun, Proc.ite_run] at hput
  split_ifs at hput with hvalid
  · obtain ⟨ret, n₂, hset, hput⟩ := Proc.bind_eq_ret hput
    rw [Proc.ite_run] at hput
    split_ifs at hput with hret
    · cases hput
    · cases hput
      refine ⟨_, lcoresAt_of_setCoremask hset hret, fun l hl => ?_⟩
      obtain ⟨hlt, hbit⟩ := List.mem_filter.mp hl
      apply hfree.mp hvalid
      simpa [BitVec.getLsbD_setWidth, Nat.lt_of_lt_of_le (List.mem_range.mp hlt) (by decide : 32 ≤ 64)] using hbit
  · cases hput

/-- **The check of a coremask is right exactly when lcore 0 speaks for the mask**: if it is
busy some lcore of the mask must be missing or busy too, and otherwise all must be free, with
no more lcores than an `int` has bits. -/
theorem coremask_judged_iff (th : Native Task) (coremask : BitVec 64) (n : Nfvi) :
    (Judges th coremask n ∧ ∀ m : BitVec 32, m.setWidth 64 = coremask → HandsFree th m) ↔
      if ZeroBusy th coremask then ¬Free th coremask else th.nLcore ≤ 32 ∧ Free th coremask := by
  constructor
  · rintro ⟨hjudges, -⟩
    exact (judges_iff th coremask n).mp hjudges
  · intro h
    refine ⟨(judges_iff th coremask n).mpr h, ?_⟩
    rintro m rfl
    exact handsFree_of_judges fun n => (judges_iff th _ n).mpr h

/-- Four lcores, of which lcore 1 runs a block. -/
def oneBusy : Native Task :=
  ⟨4, fun _ => none, [1], fun l => if l = 1 then .running (.block 0 0) (.looping (.block 0 0)) else .wait⟩

/-- The mask of the busy lcore is accepted, and that of an lcore there is not. -/
theorem coremask_misjudged :
    coremaskIsValid oneBusy 0x2 {nSocket := 1, catalog := mainCatalog} =
        .ret true {nSocket := 1, catalog := mainCatalog} ∧
      coremaskIsValid oneBusy 0x80 {nSocket := 1, catalog := mainCatalog} =
        .ret true {nSocket := 1, catalog := mainCatalog} ∧
      ¬Judges oneBusy 0x2 {nSocket := 1, catalog := mainCatalog} ∧
      ¬Judges oneBusy 0x80 {nSocket := 1, catalog := mainCatalog} := by
  have hzero (coremask : BitVec 64) : ¬ZeroBusy oneBusy coremask := fun h => h.2.2 rfl
  refine ⟨?_, ?_, fun h => ?_, fun h => ?_⟩
  · rw [coremaskIsValid_run, if_neg (hzero _)]
    rfl
  · rw [coremaskIsValid_run, if_neg (hzero _)]
    rfl
  · rw [judges_iff, if_neg (hzero _)] at h
    cases (h.2 1 (by decide)).2
  · rw [judges_iff, if_neg (hzero _)] at h
    exact absurd (h.2 7 (by decide)).1 (by decide)

end Susanow.Nfvi
