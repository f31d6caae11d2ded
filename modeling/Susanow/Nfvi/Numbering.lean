import Susanow.Nfvi.Access

/-! From a reset to the last coremask.

A reset that succeeds leaves no vcore and no counter above zero, whatever ids its probe of
each block has drawn. From there on every request for a coremask keeps the numbering. -/
namespace Susanow

namespace Nfvi
open Proc (Meets Stuck)

variable {n n' : Nfvi} {v bid : Nat} {b : Block} {E : Nfvi → Prop}

/-! ### The reset -/

theorem setCoremaskImpl_stuck_of_polls {mask : BitVec 32} {portId : Nat} (hb : n.block? v bid = some b)
    (hcls : b.cls = .l2fwdPort portId) (hport : (n.vnf v).nPorts ≤ portId) (hcore : 0 < popcnt32 mask) :
    Stuck (setCoremaskImpl v bid mask) n := by
  apply Proc.stuck_bind
  intro x n₁ hx
  obtain ⟨rfl, rfl⟩ := vnfAt_ret hx
  apply Proc.stuck_bind
  intro c n₂ hc
  obtain ⟨rfl, hc⟩ := blockAt_ret hc
  have hno : n₂.NoPort v portId := fun p hp =>
    absurd (List.getElem?_eq_some_iff.mp hp).1 (Nat.not_lt.mpr hport)
  rw [show c = b from Option.some.inj (hc.symm.trans hb), hcls]
  apply Proc.stuck_forRange wiring hcore
  · intro i
    exact Proc.within_bind ((allows_wiring v).own.grantRx bid i portId) fun _ =>
      Proc.within_forRange fun pid => (allows_wiring v).own.grantTx bid i pid
  · exact fun t ht => (grantRx_stuck (hno.of_wiring ht)).bind _

/-- A block that came out of its reset polls a port there is. -/
theorem blockReset_stuck_of_polls {portId : Nat} (hb : n.block? v bid = some b) (hcls : b.cls = .l2fwdPort portId)
    (hport : (n.vnf v).nPorts ≤ portId) : Stuck (blockReset v bid) n := by
  apply Stuck.bind
  apply Proc.stuck_bind
  intro x n₁ hx
  obtain ⟨rfl, rfl⟩ := vnfAt_ret hx
  apply Proc.stuck_bind
  intro _ n₂ hn₂
  cases hn₂
  refine setCoremaskImpl_stuck_of_polls (b := remasked (n₁.vnf v).nPorts 1 b) ?_ hcls ?_ (by decide)
  · show (n₁.editBlock v bid _).block? v bid = _
    rw [block?_editBlock, if_pos ⟨rfl, rfl⟩, hb]
    rfl
  · simpa [editBlock, editVnf, Vnf.nPorts] using hport

/-- Every block that polls one port polls one there is. -/
def PollsIn (n : Nfvi) (v : Nat) : Prop :=
  ∀ bid b, n.block? v bid = some b → ∀ portId, b.cls = .l2fwdPort portId → portId < (n.vnf v).nPorts

/-- The blocks before `k` have been reset. -/
structure ResetUpto (n : Nfvi) (v k : Nat) (n' : Nfvi) : Prop where
  wiring : n'.wiring = n.wiring
  cls : ∀ j, (n'.block? v j).map Block.cls = (n.block? v j).map Block.cls
  done : ∀ j < k, ∀ b, n'.block? v j = some b → b.coremask = 0 ∧ b.vcores = [] ∧
    ∀ portId, b.cls = .l2fwdPort portId → portId < (n.vnf v).nPorts

theorem map_cls_of_form {k : Nat} (h : (n'.block? v k).map Block.form = (n.block? v k).map Block.form) :
    (n'.block? v k).map Block.cls = (n.block? v k).map Block.cls := by
  have hfst := congrArg (Option.map Prod.fst) h
  rwa [Option.map_map, Option.map_map] at hfst

theorem Masked.cls {mask : BitVec 32} {holders : Bool → Nat → Set (Nat × Nat)} (hb : n.block? v bid = some b)
    (h : Masked n v bid mask b holders n') (j : Nat) :
    (n'.block? v j).map Block.cls = (n.block? v j).map Block.cls := by
  by_cases hj : j = bid
  · subst hj
    obtain ⟨b', hb', -⟩ := Option.map_eq_some_iff.mp h.own
    rw [hb, hb', Option.map_some, Option.map_some, (h.block hb').1]
  · exact map_cls_of_form (h.other j hj)

/-- A block throws out of its reset only if it polls a port there is not. -/
theorem blockReset_meets (hE : ¬(∀ portId, b.cls = .l2fwdPort portId → portId < (n.vnf v).nPorts) → ∀ t, E t)
    (hb : n.block? v bid = some b) :
    Meets (blockReset v bid) n (fun _ n' => n'.wiring = n.wiring ∧
      (∀ portId, b.cls = .l2fwdPort portId → portId < (n.vnf v).nPorts) ∧
      (∀ k ≠ bid, (n'.block? v k).map Block.form = (n.block? v k).map Block.form) ∧
      (n'.block? v bid).map Block.cls = some b.cls) E := by
  by_cases hpolls : ∀ portId, b.cls = .l2fwdPort portId → portId < (n.vnf v).nPorts
  · have hmask : Meets (blockSetCoremask v bid 1) n (fun _ n' => Masked n v bid 1 b (fun _ _ => ∅) n') E :=
      blockSetCoremask_meets hb hpolls
    refine Proc.meets_bind hmask fun _ n₁ hm => ?_
    obtain ⟨b₁, hb₁, -⟩ := Option.map_eq_some_iff.mp hm.own
    refine Proc.meets_bind (blockAt_meets hb₁) ?_
    rintro c n₂ ⟨rfl, rfl⟩
    split
    · exact Proc.meets_crash
    · next sid _ =>
      refine Proc.meets_of_ret rfl ⟨?_, hpolls, fun k hk => ?_, ?_⟩
      · exact ((allows_wiring v).block n₂ bid (fun b => {b with
          affinity := sid, socketAffinity := List.replicate b.socketAffinity.length 0})
          (fun _ => rfl) fun _ h => h).trans hm.wiring
      · rw [block?_editBlock, if_neg fun h => hk h.2, hm.other k hk]
      · rw [block?_editBlock, if_pos ⟨rfl, rfl⟩, hb₁, Option.map_some, Option.map_some]
        exact congrArg some (hm.block hb₁).1
  · refine ⟨fun a n' hret => ?_, fun _ t _ => hE hpolls t⟩
    push Not at hpolls
    obtain ⟨portId, hcls, hport⟩ := hpolls
    exact absurd hret (blockReset_stuck_of_polls hb hcls hport a n')

theorem setCoremask_meets {mask : BitVec 32} (holders : Bool → Nat → Set (Nat × Nat))
    (hfull : none ∉ (n.vnf v).ports) (hb : n.block? v bid = some b)
    (hpolls : ∀ portId, b.cls = .l2fwdPort portId → portId < (n.vnf v).nPorts) :
    Meets (setCoremask v bid mask) n (fun _ n' => Masked n v bid mask b holders n') E := by
  refine Proc.meets_bind (vnfAt_meets v n) ?_
  rintro x n₁ ⟨rfl, rfl⟩
  rw [if_neg hfull]
  refine Proc.meets_bind (blockAt_meets hb) ?_
  rintro c n₂ ⟨rfl, rfl⟩
  exact Proc.meets_bind (blockSetCoremask_meets hb hpolls) fun _ n' hm => Proc.meets_pure hm

/-- One round of the first loop of `reset`. -/
theorem ResetUpto.round {k : Nat} (hE : ¬n.PollsIn v → ∀ t, E t) (hfull : none ∉ (n.vnf v).ports)
    (hk : k < (n.vnf v).nBlocks) (h : ResetUpto n v k n') :
    Meets (blockReset v k >>= fun _ => Nfvi.setCoremask v k 0 >>= fun _ => pure ()) n'
      (fun _ n'' => ResetUpto n v (k + 1) n'') E := by
  have hports := ports_of_wiring h.wiring v
  have hblock : n.block? v k = some ((n.vnf v).blocks.get ⟨k, hk⟩) := List.getElem?_eq_getElem hk
  obtain ⟨b, hb, hbcls⟩ : ∃ b, n'.block? v k = some b ∧ b.cls = ((n.vnf v).blocks.get ⟨k, hk⟩).cls := by
    have hcls := h.cls k
    rw [hblock] at hcls
    exact Option.map_eq_some_iff.mp hcls
  have hEb : ¬(∀ portId, b.cls = .l2fwdPort portId → portId < (n'.vnf v).nPorts) → ∀ t, E t := by
    rw [Vnf.nPorts, hports, hbcls]
    exact fun hb => hE fun hpolls => hb (hpolls k _ hblock)
  refine Proc.meets_bind (blockReset_meets hEb hb) ?_
  rintro _ n₁ ⟨hwiring, hpolls, hother, hown⟩
  obtain ⟨b₁, hb₁, hcls₁⟩ := Option.map_eq_some_iff.mp hown
  have hports₁ := (ports_of_wiring hwiring v).trans hports
  have hpolls₁ (portId : Nat) (hc : b₁.cls = .l2fwdPort portId) : portId < (n₁.vnf v).nPorts := by
    rw [Vnf.nPorts, hports₁, ← hports]
    exact hpolls portId (hcls₁ ▸ hc)
  refine Proc.meets_bind (setCoremask_meets (fun _ _ => ∅) (hports₁ ▸ hfull) hb₁ hpolls₁) ?_
  intro _ n₂ hm
  refine Proc.meets_pure ⟨hm.wiring.trans (hwiring.trans h.wiring), fun j => ?_, fun j hj c hc => ?_⟩
  · rw [hm.cls hb₁ j, ← h.cls j]
    by_cases hjk : j = k
    · subst hjk
      rw [hown, hb, Option.map_some]
    · exact map_cls_of_form (hother j hjk)
  · by_cases hjk : j = k
    · subst hjk
      obtain ⟨hcls, hmask, -, hlen⟩ := hm.block hc
      refine ⟨hmask, List.length_eq_zero_iff.mp hlen, fun portId hp => ?_⟩
      rw [Vnf.nPorts, ← hports]
      exact hpolls portId (hcls₁ ▸ hcls ▸ hp)
    · obtain ⟨c₁, hc₁, hcls, hmask, hrows⟩ := form_eq (hm.other j hjk) hc
      obtain ⟨c₀, hc₀, hcls', hmask', hrows'⟩ := form_eq (hother j hjk) hc₁
      obtain ⟨hzero, hnil, hport⟩ := h.done j (by omega) c₀ hc₀
      refine ⟨hmask.trans (hmask'.trans hzero), ?_, fun portId hp => hport portId ?_⟩
      · have hlen := (length_of_form hrows).trans (length_of_form hrows')
        rw [hnil] at hlen
        exact List.length_eq_zero_iff.mp hlen
      · rw [← hcls', ← hcls]
        exact hp

/-- The counters of the ports in the first `k` slots are zero. -/
def Zeroed (n : Nfvi) (v k : Nat) (n' : Nfvi) : Prop :=
  n'.vnf = n.vnf ∧ ∀ pid < k, ∀ p, (n.vnf v).ports[pid]? = some (some p) → ∀ tx, (n'.port p).nAcc tx = 0

/-- One round of the second loop. -/
theorem Zeroed.round {k : Nat} (hfull : none ∉ (n.vnf v).ports) (hk : k < (n.vnf v).nPorts)
    (h : Zeroed n v k n') :
    Meets (slotAt v k >>= fun p => portAt p >>= fun _ => modifyPort p VnfPort.resetAcc) n'
      (fun _ n'' => Zeroed n v (k + 1) n'') E := by
  obtain ⟨hvnf, hzero⟩ := h
  cases hslot : (n.vnf v).ports[k] with
  | none => exact absurd (hslot ▸ List.getElem_mem hk) hfull
  | some q =>
    have hq : (n.vnf v).ports[k]? = some (some q) := by
      rw [List.getElem?_eq_getElem hk, hslot]
    refine Proc.meets_bind (slotAt_meets (p := q) (by rw [hvnf]; exact hq)) ?_
    rintro _ n₁ ⟨rfl, rfl⟩
    refine Proc.meets_bind (portAt_meets _ n₁) ?_
    rintro _ n₂ ⟨rfl, -⟩
    refine Proc.meets_of_ret rfl ⟨hvnf, fun pid hpid p hp tx => ?_⟩
    show (Function.update n₂.port _ (VnfPort.resetAcc _) p).nAcc tx = 0
    rw [Function.update_apply]
    split_ifs with hpq
    · cases tx <;> rfl
    · refine hzero pid ?_ p hp tx
      rcases Nat.lt_succ_iff_lt_or_eq.mp hpid with hlt | rfl
      · exact hlt
      · rw [hq] at hp
        cases hp
        exact absurd rfl hpq

/-- Nobody holds an id, and no id has been drawn. -/
theorem ResetUpto.filled {n₂ : Nfvi} (h : ResetUpto n v (n.vnf v).nBlocks n') (hfull : none ∉ (n.vnf v).ports)
    (hdistinct : n.Distinct v) (hz : Zeroed n' v (n.vnf v).nPorts n₂) : Filled n₂ v := by
  obtain ⟨hvnf, hzero⟩ := hz
  have hports : (n₂.vnf v).ports = (n.vnf v).ports := by
    rw [hvnf, ports_of_wiring h.wiring]
  have hdone (k : Nat) (c : Block) (hc : n₂.block? v k = some c) : c.coremask = 0 ∧ c.vcores = [] ∧
      ∀ portId, c.cls = .l2fwdPort portId → portId < (n.vnf v).nPorts := by
    rw [block?, hvnf] at hc
    apply h.done k _ c hc
    have hcls := h.cls k
    rw [block?, hc] at hcls
    obtain ⟨c', hc', -⟩ := Option.map_eq_some_iff.mp hcls.symm
    exact (List.getElem?_eq_some_iff.mp hc').1
  refine ⟨hports ▸ hfull, ?_, fun k c hc => ?_, fun k c hc => ?_, fun t pid p hp => ?_⟩
  · unfold Distinct
    rw [hports]
    exact hdistinct
  · rw [Vnf.nPorts, hports]
    exact (hdone k c hc).2.2
  · rw [(hdone k c hc).1, (hdone k c hc).2.1]
    rfl
  · have hnobody : n₂.workers v t pid = ∅ := by
      apply Set.eq_empty_of_forall_notMem
      rintro w ⟨c, hc, -, hlt⟩
      rw [(hdone w.1 c hc).2.1] at hlt
      exact absurd hlt (Nat.not_lt_zero _)
    have hlt : pid < (n.vnf v).nPorts := by
      rw [Vnf.nPorts, ← hports]
      exact (List.getElem?_eq_some_iff.mp hp).1
    rw [hvnf] at hp
    rw [hnobody, hzero pid hlt p hp t]
    exact numbers_empty _

/-- With a port in every slot the reset goes to its end. -/
theorem reset_meets_full (hE : ¬n.PollsIn v → ∀ t, E t) (hfull : none ∉ (n.vnf v).ports)
    (hdistinct : n.Distinct v) : Meets (reset v) n (fun _ n' => Filled n' v) E := by
  refine Proc.meets_bind (vnfAt_meets v n) ?_
  rintro x n₁ ⟨rfl, rfl⟩
  refine Proc.meets_bind (Q := fun _ n' => ResetUpto n₁ v (n₁.vnf v).nBlocks n') ?_ fun _ n₂ hblocks => ?_
  · apply Proc.meets_forRange (fun k n' => ResetUpto n₁ v k n')
      ⟨rfl, fun _ => rfl, fun j hj => absurd hj (Nat.not_lt_zero j)⟩
    exact fun k hk n' h => h.round hE hfull hk
  · rw [if_neg hfull]
    have hports := ports_of_wiring hblocks.wiring v
    refine Proc.meets_bind (Q := fun _ n' => Zeroed n₂ v (n₁.vnf v).nPorts n') ?_ fun _ n₃ hz => ?_
    · apply Proc.meets_forRange (fun k n' => Zeroed n₂ v k n')
        ⟨rfl, fun pid hpid => absurd hpid (Nat.not_lt_zero pid)⟩
      intro k hk n' h
      exact h.round (hports ▸ hfull) (by rwa [Vnf.nPorts, hports])
    · exact Proc.meets_pure (hblocks.filled hfull hdistinct hz)

theorem reset_meets (hdistinct : n.Distinct v) :
    Meets (reset v) n (fun ret n' => 0 ≤ ret → Filled n' v) fun _ => True := by
  by_cases hfull : none ∈ (n.vnf v).ports
  · refine Proc.meets_bind (vnfAt_meets v n) ?_
    rintro x n₁ ⟨rfl, rfl⟩
    refine Proc.meets_bind (Q := fun _ _ => True) ⟨fun _ _ _ => trivial, fun _ _ _ => trivial⟩ fun _ n₂ _ => ?_
    rw [if_pos hfull]
    exact Proc.meets_pure fun h => absurd h (by decide)
  · exact (reset_meets_full (fun _ _ => trivial) hfull hdistinct).weaken fun _ _ h _ => h

theorem resetPut_meets {iname : String} (hv : n.findVnf iname = some v) (hdistinct : n.Distinct v) :
    Meets (resetPut iname) n (fun nx n' => ∀ msg, nx = .done (.reply ⟨true, msg⟩) → Filled n' v)
      fun _ => True := by
  refine Proc.meets_get_bind ?_
  rw [hv]
  dsimp only
  split_ifs
  · exact Proc.meets_pure nofun
  · refine Proc.meets_bind (reset_meets hdistinct) fun ret n' hret => ?_
    split_ifs with hneg
    · exact Proc.meets_pure nofun
    · exact Proc.meets_pure fun _ _ => hret (Int.not_lt.mp hneg)

/-! ### The coremasks -/

theorem Filled.setCoremask {mask : BitVec 32} (h : Filled n v) (hb : n.block? v bid = some b)
    (hzero : b.coremask = 0) : Meets (Nfvi.setCoremask v bid mask) n (fun _ n' => Filled n' v) E :=
  (setCoremask_meets _ h.full hb (h.polls bid b hb)).weaken fun _ _ hm => h.masked hb hzero hm

/-- A request for a coremask writes a block whose mask is zero, or nothing. -/
theorem coremaskPut_meets {I : Nfvi → Prop} {th : Native Task} {iname : String} {blockId : Int}
    {mask : Option (BitVec 32)} (h : I n)
    (hset : ∀ u bid b m, n.findVnf iname = some u → n.block? u bid = some b → b.coremask = 0 →
      Meets (Nfvi.setCoremask u bid m) n (fun _ => I) I) :
    Meets (Nfvi.coremaskPut th iname blockId mask) n (fun _ => I) I := by
  refine Proc.meets_get_bind ?_
  split
  · exact Proc.meets_pure h
  · next u hu =>
    split_ifs
    · exact Proc.meets_pure h
    · exact Proc.meets_throw h
    · refine Proc.meets_bind_of_ret (fun w n' hw => ?_) fun b n' hb => ?_
      · exact (within_blockAt (R := fun n n' => I n → I n') u blockId.toNat n).2 w n' hw h
      obtain ⟨rfl, hb⟩ := blockAt_ret hb
      split_ifs with hgate
      · exact Proc.meets_pure h
      · cases mask with
        | none => exact Proc.meets_bind (Q := fun _ _ => False) (Proc.meets_throw h) fun _ _ hf => hf.elim
        | some mask =>
          refine Proc.meets_bind (Q := fun _ t => t = n') (Proc.meets_pure rfl) ?_
          rintro _ m rfl
          refine Proc.meets_bind_of_ret (fun w t hw => ?_) fun valid t hvalid => ?_
          · exact (within_coremaskIsValid (R := fun n n' => I n → I n') th _ _).2 w t hw h
          obtain rfl : t = m :=
            (within_coremaskIsValid (R := fun n n' => id n' = id n) th _ _).1 valid t hvalid
          split_ifs
          · refine Proc.meets_bind (hset u _ b _ hu hb (not_not.mp hgate)) fun ret n' hI => ?_
            split_ifs <;> exact Proc.meets_pure hI
          · exact Proc.meets_pure h

theorem Filled.coremaskPut {th : Native Task} {iname : String} {blockId : Int} {mask : Option (BitVec 32)}
    (h : Filled n v) (hv : ∀ u, n.findVnf iname = some u → u = v) :
    Meets (Nfvi.coremaskPut th iname blockId mask) n (fun _ n' => Filled n' v) fun n' => Filled n' v := by
  apply coremaskPut_meets h
  intro u bid b m hu hb hzero
  obtain rfl := hv u hu
  exact h.setCoremask hb hzero

/-- What `Filled` reads of a block. -/
def core (b : Block) : BlockClass × BitVec 32 × List Vcore := (b.cls, b.coremask, b.vcores)

theorem core_eq {k : Nat} {c : Block} (h : (n'.block? v k).map core = (n.block? v k).map core)
    (hc : n'.block? v k = some c) :
    ∃ c', n.block? v k = some c' ∧ c.cls = c'.cls ∧ c.coremask = c'.coremask ∧ c.vcores = c'.vcores := by
  rw [hc] at h
  obtain ⟨c', hc', hcore⟩ := Option.map_eq_some_iff.mp h.symm
  simp only [core, Prod.mk.injEq] at hcore
  exact ⟨c', hc', hcore.1.symm, hcore.2.1.symm, hcore.2.2.symm⟩

theorem aid_same (h : ∀ k, (n'.block? v k).map core = (n.block? v k).map core) (tx : Bool) (pid : Nat) :
    n'.aid tx v pid = n.aid tx v pid := by
  funext w
  have hvcores := congrArg (Option.map fun c : BlockClass × BitVec 32 × List Vcore => c.2.2) (h w.1)
  rw [Option.map_map, Option.map_map] at hvcores
  unfold aid
  cases hb' : n'.block? v w.1 with
  | none =>
    rw [hb'] at hvcores
    rw [Option.map_eq_none_iff.mp hvcores.symm]
  | some b' =>
    obtain ⟨b, hb, -, -, hvc⟩ := core_eq (h w.1) hb'
    rw [hb, Option.bind_some, Option.bind_some, hvc]

theorem workers_sub (h : ∀ k, (n'.block? v k).map core = (n.block? v k).map core) (tx : Bool) (pid : Nat) :
    n'.workers v tx pid ⊆ n.workers v tx pid := by
  rintro w ⟨c, hc, htx, hlt⟩
  obtain ⟨c', hc', hcls, -, hvcores⟩ := core_eq (h w.1) hc
  rw [Block.receives_congr hcls] at htx
  exact ⟨c', hc', htx, hvcores ▸ hlt⟩

theorem workers_same (h : ∀ k, (n'.block? v k).map core = (n.block? v k).map core) (tx : Bool) (pid : Nat) :
    n'.workers v tx pid = n.workers v tx pid :=
  (workers_sub h tx pid).antisymm (workers_sub (fun k => (h k).symm) tx pid)

theorem Filled.same (h : Filled n v) (hports : (n'.vnf v).ports = (n.vnf v).ports) (hport : n'.port = n.port)
    (hblock : ∀ k, (n'.block? v k).map core = (n.block? v k).map core) : Filled n' v := by
  refine ⟨hports ▸ h.full, ?_, fun k c hc => ?_, fun k c hc => ?_, fun tx pid p hp => ?_⟩
  · unfold Distinct
    rw [hports]
    exact h.distinct
  · obtain ⟨c', hc', hcls, -⟩ := core_eq (hblock k) hc
    rw [hcls, Vnf.nPorts, hports]
    exact h.polls k c' hc'
  · obtain ⟨c', hc', -, hmask, hvcores⟩ := core_eq (hblock k) hc
    rw [hmask, hvcores]
    exact h.cores k c' hc'
  · rw [hports] at hp
    rw [aid_same hblock, workers_same hblock, hport]
    exact h.drawn tx pid p hp

theorem core_editBlock {f : Block → Block} (hf : ∀ b, core (f b) = core b) (n : Nfvi) (u v k : Nat) :
    ((n.editBlock u bid f).block? v k).map core = (n.block? v k).map core := by
  rw [block?_editBlock]
  split_ifs
  · rw [Option.map_map]
    exact congrArg (Option.map · _) (funext hf)
  · rfl

/-- A worker that stores its flag. -/
theorem Filled.setRunning (h : Filled n v) (u : Nat) (running : Bool) :
    Filled (n.editBlock u bid (Sys.setRunning running)) v := by
  have hcore (b : Block) : core (Sys.setRunning running b) = core b := rfl
  exact h.same (ports_of_wiring (wiring_editBlock n u bid _) v) rfl (core_editBlock hcore n u v)

end Nfvi

/-! ### Runs -/

namespace Nfvi

def rxaid (n : Nfvi) (v pid : Nat) (w : Nat × Nat) : Option Nat :=
  (n.block? v w.1).bind fun b => b.getLcorePortRxaid w.2 pid

def txaid (n : Nfvi) (v pid : Nat) (w : Nat × Nat) : Option Nat :=
  (n.block? v w.1).bind fun b => b.getLcorePortTxaid w.2 pid

/-- The vcores of a block are the cores of its mask, and the ids of a port, to receive or to
send, number the vcores that have one. -/
structure Numbered (n : Nfvi) (v : Nat) : Prop where
  cores : ∀ bid b, n.block? v bid = some b → b.vcores.map Vcore.lcoreId = coresOf b.coremask ∧
    b.vcores.length = popcnt32 b.coremask ∧
    ∀ (i : Nat) (vc : Vcore), b.vcores[i]? = some vc → b.getVlcoreId vc.lcoreId = some i
  rx : ∀ pid p : Nat, (n.vnf v).ports[pid]? = some (some p) → Set.BijOn (n.rxaid v pid)
    {w | ∃ b, n.block? v w.1 = some b ∧ b.receives pid = true ∧ w.2 < b.vcores.length}
    (some '' Set.Iio (n.port p).nRxacc)
  tx : ∀ pid p : Nat, (n.vnf v).ports[pid]? = some (some p) → Set.BijOn (n.txaid v pid)
    {w | ∃ b, n.block? v w.1 = some b ∧ w.2 < b.vcores.length} (some '' Set.Iio (n.port p).nTxacc)

theorem coresOf_nodup (mask : BitVec 32) : (coresOf mask).Nodup := List.nodup_range.filter _

theorem getVlcoreId_of_nodup {b : Block} (h : (b.vcores.map Vcore.lcoreId).Nodup) {i : Nat} {vc : Vcore}
    (hvc : b.vcores[i]? = some vc) : b.getVlcoreId vc.lcoreId = some i := by
  obtain ⟨hi, rfl⟩ := List.getElem?_eq_some_iff.mp hvc
  rw [Block.getVlcoreId, List.findIdx?_eq_some_iff_getElem]
  refine ⟨hi, by simp, fun j hj => ?_⟩
  simp only [beq_iff_eq]
  intro heq
  have hlen : (b.vcores.map Vcore.lcoreId).length = b.vcores.length := List.length_map ..
  have hij : j = i := (List.getElem?_inj (hlen ▸ hj.trans hi) h).mp (by simpa [hi, hj.trans hi] using heq)
  exact Nat.ne_of_lt hj hij

theorem Filled.numbered {n : Nfvi} {v : Nat} (h : Filled n v) : n.Numbered v where
  cores bid b hb := by
    have hcores := h.cores bid b hb
    refine ⟨hcores, ?_, fun i vc hvc => getVlcoreId_of_nodup (hcores ▸ coresOf_nodup _) hvc⟩
    rw [popcnt32, ← hcores, List.length_map]
  rx pid p hp := by
    have hrx : Set.BijOn (n.rxaid v pid) (n.workers v false pid)
        (some '' Set.Iio (n.port p).nRxacc) := h.drawn false pid p hp
    simpa [workers] using hrx
  tx pid p hp := by
    have htx : Set.BijOn (n.txaid v pid) (n.workers v true pid)
        (some '' Set.Iio (n.port p).nTxacc) := h.drawn true pid p hp
    simpa [workers] using htx

end Nfvi

/-- The step resets VNF `v` and succeeds. -/
inductive ResetDone (v : Nat) (s t : Sys) : Prop
  | put {iname msg : String} : s.nfvi.findVnf iname = some v → s.step (.request (.resetPut iname)) = some t →
      t.ctrl = .idle (some (.reply ⟨true, msg⟩)) → ResetDone v s t
  | call : s.step (.call (.reset v)) = some t → t.ctrl = .idle (some (.returned 0)) → ResetDone v s t

/-- Coremasks are put to VNF `v`, while workers go on. -/
def Puts (v : Nat) (s : Sys) : Label → Prop
  | .request (.coremaskPut iname _ _) => s.nfvi.findVnf iname = some v ∨ s.nfvi.findVnf iname = none
  | .wrk _ => True
  | _ => False

instance (v : Nat) (s : Sys) (l : Label) : Decidable (Puts v s l) := by
  unfold Puts
  split <;> infer_instance

theorem ResetDone.filled {v : Nat} {s t : Sys} (h : ResetDone v s t) (hattached : s.nfvi.wiring.Attached) :
    t.nfvi.Filled v := by
  have hdistinct (hv : v ∈ s.nfvi.vnfs) : s.nfvi.Distinct v := hattached.slot_inj v hv
  cases h with
  | @put iname msg hv hstep hdone =>
    obtain ⟨-, ⟨nx, n, hrun, rfl⟩ | ⟨w, n, hrun, rfl⟩⟩ := Sys.serve_some hstep
    · have hmeets := (Nfvi.resetPut_meets hv (hdistinct (List.mem_of_find?_eq_some hv))).1 nx n hrun
      cases nx with
      | done d =>
        apply hmeets msg
        simpa [Sys.ctrlOf] using hdone
      | launch u => cases hdone
      | undeploy u => cases hdone
    · cases hdone
  | call hstep hdone =>
    obtain ⟨-, ⟨nx, n, hrun, rfl⟩ | ⟨w, n, hrun, rfl⟩⟩ := Sys.serve_some hstep
    · have hv : v ∈ s.nfvi.vnfs := by
        by_contra hv
        have hcrash : Nfvi.reset v s.nfvi = .crash .danglingPointer := Proc.bind_crash (Nfvi.vnfAt_of_not_mem hv)
        rw [Sys.invoke, Proc.bind_crash hcrash] at hrun
        cases hrun
      obtain ⟨ret, n', hret, hnx⟩ := Proc.bind_eq_ret hrun
      cases hnx
      apply (Nfvi.reset_meets (hdistinct hv)).1 ret n hret
      simp only [Sys.ctrlOf, Ctrl.idle.injEq, Option.some.injEq, Done.returned.injEq] at hdone
      exact hdone.ge
    · cases hdone

theorem filled_step {v : Nat} {s t : Sys} {l : Label} (h : s.nfvi.Filled v) (hrule : Puts v s l)
    (hstep : s.step l = some t) : t.nfvi.Filled v := by
  cases l with
  | request r =>
    cases r with
    | coremaskPut iname blockId mask =>
      have hname (u : Nat) (hu : s.nfvi.findVnf iname = some u) : u = v := by
        rcases hrule with hv | hnone
        · exact Option.some.inj (hu.symm.trans hv)
        · rw [hnone] at hu
          cases hu
      have hmeets : Proc.Meets (Nfvi.coremaskPut s.native iname blockId mask) s.nfvi (fun _ n => n.Filled v)
          fun n => n.Filled v := h.coremaskPut hname
      obtain ⟨-, ⟨nx, n, hrun, rfl⟩ | ⟨w, n, hrun, rfl⟩⟩ := Sys.serve_some hstep
      · exact hmeets.1 nx n hrun
      · exact hmeets.2 w n hrun
    | _ => exact hrule.elim
  | call c => exact hrule.elim
  | ctl => exact hrule.elim
  | wrk l =>
    cases Sys.wrk_some hstep with
    | fetch _ _ => exact h
    | timer _ => exact h
    | enter _ _ _ => exact h.setRunning _ true
    | pass _ _ => exact h
    | leave _ _ _ => exact h

theorem numbered_of_run {nSocket nLcore : Nat} {catalog : List (String × VnfClass)} {ls ms : List Label}
    {s t u : Sys} {v : Nat} (h : Runs Sys.step Always (.init nSocket nLcore catalog) ls s)
    (hreset : ResetDone v s t) (hputs : Runs Sys.step (Puts v) t ms u) : u.nfvi.Numbered v := by
  have hfilled : u.nfvi.Filled v := hputs.invariant (I := fun s => s.nfvi.Filled v)
    (hreset.filled (attached_of_run h)) fun s l t hs hrule hstep => filled_step hs hrule hstep
  exact hfilled.numbered

/-- Coremasks for the two blocks of an `l2fwd_numa`; the last one is refused. -/
def numaMasks : List Label :=
  [.request (.coremaskPut "v" 1 (some 0x0c)), .request (.coremaskPut "v" 0 (some 0)),
    .request (.coremaskPut "v" 0 (some 0x30)), .request (.coremaskPut "v" 1 (some 0x2))]

theorem numbered_of_numaRun : ∃ s t u, ResetDone 0 s t ∧ exec Sys.step t numaMasks = some u ∧
    (u.nfvi.port 1).nRxacc = 2 ∧ (u.nfvi.port 1).nTxacc = 4 ∧ u.nfvi.Numbered 0 := by
  have hrun : ((exec Sys.step (.init 1 8 mainCatalog) (bringUp "l2fwd_numa")).bind fun s =>
      (s.step (.request (.resetPut "v"))).bind fun t => (exec Sys.step t numaMasks).map fun u =>
        (s.nfvi.findVnf "v", t.ctrl, obeys Sys.step (Puts 0) t numaMasks, (u.nfvi.port 1).nRxacc,
          (u.nfvi.port 1).nTxacc)) =
      some (some 0, .idle (some (.reply ⟨true, "reset vnf's running config"⟩)), true, 2, 4) := by
    decide +kernel
  obtain ⟨s, hs, hrun⟩ := Option.bind_eq_some_iff.mp hrun
  obtain ⟨t, hstep, hrun⟩ := Option.bind_eq_some_iff.mp hrun
  obtain ⟨u, hu, heq⟩ := Option.map_eq_some_iff.mp hrun
  simp only [Prod.mk.injEq] at heq
  obtain ⟨hv, hctrl, hobeys, hrx, htx⟩ := heq
  have hreset : ResetDone 0 s t := .put hv hstep hctrl
  exact ⟨s, t, u, hreset, hu, hrx, htx, numbered_of_run (Runs.of_exec hs) hreset (Runs.of_obeys hobeys hu)⟩

end Susanow
