import Susanow.Nfvi.Holding
import Susanow.Nfvi.Probing
import Susanow.Nfvi.Workers

/-! Ports in step.

A vcore asks every port of its VNF for an access to send, and `set_coremask` goes through
the ports vcore by vcore. So from a reset on, and until a slot changes, the ports have been
asked as often as each other (`InStep`): the id that a vcore holds for one of them is the id
it holds for all. -/
namespace Susanow

namespace Nfvi
open Proc (Meets)

/-- The ports have dealt as many ids to send as each other, and every vcore has the same id at all of them. -/
structure InStep (n : Nfvi) (v : Nat) : Prop where
  full : none ∉ (n.vnf v).ports
  acc : ∀ pid qid p q : Nat, (n.vnf v).ports[pid]? = some (some p) → (n.vnf v).ports[qid]? = some (some q) →
    (n.port p).nTxacc = (n.port q).nTxacc
  ids : ∀ w, ∀ pid < (n.vnf v).nPorts, ∀ qid < (n.vnf v).nPorts, n.aid true v pid w = n.aid true v qid w

/-! ### A new coremask -/

/-- How far the loops of `set_coremask_impl` have come since `n`: the first `d t q` vcores of the
block have been dealt the next ids of port `q`, in turn. -/
structure Pacing (n : Nfvi) (v bid : Nat) (d : Bool → Nat → Nat) (n' : Nfvi) : Prop where
  drawing : Drawing n v bid d n'
  acc : n.Distinct v → ∀ t q p, (n.vnf v).ports[q]? = some (some p) →
    (n'.port p).nAcc t = (n.port p).nAcc t + d t q
  ids : n.Distinct v → ∀ t q p, (n.vnf v).ports[q]? = some (some p) → ∀ i < d t q,
    n'.aid t v q (bid, i) = some ((n.port p).nAcc t + i)

section Pacing
variable {n n' n'' : Nfvi} {v bid k : Nat} {d d' : Bool → Nat → Nat} {mask : BitVec 32} {b : Block} {E : Nfvi → Prop}

theorem pacing_start (n : Nfvi) (v bid : Nat) : Pacing n v bid (fun _ _ => 0) n :=
  ⟨drawing_start n v bid, fun _ _ _ _ _ => rfl, fun _ _ _ _ _ i hi => absurd hi (Nat.not_lt_zero i)⟩

theorem Pacing.congr (h : Pacing n v bid d n') (hd : ∀ t, ∀ q < (n.vnf v).nPorts, d t q = d' t q) :
    Pacing n v bid d' n' := by
  have heq (t : Bool) {q p : Nat} (hq : (n.vnf v).ports[q]? = some (some p)) : d t q = d' t q :=
    hd t q (List.getElem?_eq_some_iff.mp hq).1
  refine ⟨h.drawing.congr hd, fun hdistinct t q p hq => ?_, fun hdistinct t q p hq i hi => ?_⟩
  · rw [h.acc hdistinct t q p hq, heq t hq]
  · exact h.ids hdistinct t q p hq i (heq t hq ▸ hi)

/-- One more vcore has drawn an id of port `pid`. -/
theorem Pacing.granted {tx : Bool} {i pid p : Nat} (h : Pacing n v bid d n') (hi : d tx pid = i)
    (hslot : (n'.vnf v).ports[pid]? = some (some p)) (hg : Granted tx v bid i pid p n' n'') :
    Pacing n v bid (bump d tx pid) n'' := by
  have hslot' : (n.vnf v).ports[pid]? = some (some p) := ports_of_wiring h.drawing.wiring v ▸ hslot
  have hother (hdistinct : n.Distinct v) {t : Bool} {q p' : Nat} (hq : (n.vnf v).ports[q]? = some (some p'))
      (hne : ¬(t = tx ∧ q = pid)) : ¬(t = tx ∧ p' = p) := by
    rintro ⟨rfl, rfl⟩
    exact hne ⟨rfl, hdistinct q pid p' hq hslot'⟩
  refine ⟨h.drawing.granted hi hslot hg, fun hdistinct t q p' hq => ?_, fun hdistinct t q p' hq j hj => ?_⟩
  · rw [hg.acc, h.acc hdistinct t q p' hq]
    by_cases htq : t = tx ∧ q = pid
    · obtain ⟨rfl, rfl⟩ := htq
      cases hslot'.symm.trans hq
      rw [if_pos ⟨rfl, rfl⟩, bump, if_pos ⟨rfl, rfl⟩, Nat.add_assoc]
    · rw [if_neg (hother hdistinct hq htq), bump, if_neg htq]
  · by_cases htq : t = tx ∧ q = pid
    · obtain ⟨rfl, rfl⟩ := htq
      cases hslot'.symm.trans hq
      rw [bump, if_pos ⟨rfl, rfl⟩] at hj
      rcases Nat.lt_succ_iff_lt_or_eq.mp hj with hlt | rfl
      · rw [hg.aid, if_neg, h.ids hdistinct t q p hq j hlt]
        rintro ⟨-, -, heq⟩
        exact Nat.ne_of_lt hlt ((Prod.mk.inj heq).2.trans hi.symm)
      · rw [hg.aid, if_pos ⟨rfl, rfl, by rw [hi]⟩, h.acc hdistinct t q p hq]
    · rw [bump, if_neg htq] at hj
      rw [hg.aid, if_neg fun heq => htq ⟨heq.1, heq.2.1⟩, h.ids hdistinct t q p' hq j hj]

theorem pacing_draws (hrows : Rows n v bid k) : Draws v bid k (n.vnf v).nPorts (Pacing n v bid) E where
  grant tx i pid d n' hi hpid hdi h := by
    have hrows' : Rows n' v bid k := hrows.same h.drawing.wiring (h.drawing.form bid)
    have hpid' : pid < (n'.vnf v).nPorts := by
      rwa [Vnf.nPorts, ports_of_wiring h.drawing.wiring]
    refine (grant_meets hrows' hi hpid').weaken ?_
    rintro _ n'' ⟨p, hslot, hgranted⟩
    exact h.granted hdi hslot hgranted
  congr d d' n' hd h := h.congr hd

theorem aid_eq_none {t : Bool} {q i : Nat} (hb : n.block? v bid = some b) (hi : b.vcores.length ≤ i) :
    n.aid t v q (bid, i) = none := by
  rw [aid, hb, Option.bind_some, List.getElem?_eq_none_iff.mpr hi, Option.bind_none]

theorem InStep.setCoremask (h : n.InStep v) (hdistinct : n.Distinct v) (hpolls : n.PollsIn v)
    (hb : n.block? v bid = some b) : Meets (Nfvi.setCoremask v bid mask) n (fun _ n' => n'.InStep v) E := by
  refine Proc.meets_bind (vnfAt_meets v n) ?_
  rintro x n₁ ⟨rfl, rfl⟩
  rw [if_neg h.full]
  refine Proc.meets_bind (blockAt_meets hb) ?_
  rintro c n₂ ⟨rfl, rfl⟩
  have hwiring := wiring_remasked n₂ v bid mask
  have hports := ports_of_wiring hwiring v
  have hdraws := pacing_draws (E := E) (rows_remasked hb mask)
  rw [nPorts_remasked] at hdraws
  refine Proc.meets_bind (hdraws.blockSetCoremask hb (hpolls bid c hb) (pacing_start _ v bid)) fun _ n' hd => ?_
  have hports' := (ports_of_wiring hd.drawing.wiring v).trans hports
  have hdistinct' := hdistinct.of_wiring hwiring
  have hslot {q : Nat} (hq : q < (n'.vnf v).nPorts) : ∃ p, (n₂.vnf v).ports[q]? = some (some p) := by
    rw [Vnf.nPorts, hports'] at hq
    cases hslot : (n₂.vnf v).ports[q] with
    | none => exact absurd (hslot ▸ List.getElem_mem hq) h.full
    | some p => exact ⟨p, by rw [List.getElem?_eq_getElem hq, hslot]⟩
  have hacc {q p : Nat} (hp : (n₂.vnf v).ports[q]? = some (some p)) :
      (n'.port p).nTxacc = (n₂.port p).nTxacc + popcnt32 mask :=
    hd.acc hdistinct' true q p (hports ▸ hp)
  have hids {q p : Nat} (hp : (n₂.vnf v).ports[q]? = some (some p)) {i : Nat} (hi : i < popcnt32 mask) :
      n'.aid true v q (bid, i) = some ((n₂.port p).nTxacc + i) :=
    hd.ids hdistinct' true q p (hports ▸ hp) i hi
  refine Proc.meets_pure ⟨hports' ▸ h.full, fun pid qid p q hp hq => ?_, fun w pid hpid qid hqid => ?_⟩
  · rw [hports'] at hp hq
    rw [hacc hp, hacc hq, h.acc pid qid p q hp hq]
  · by_cases hw : w.1 = bid
    · obtain ⟨k, i⟩ := w
      obtain rfl : k = bid := hw
      by_cases hi : i < popcnt32 mask
      · obtain ⟨p, hp⟩ := hslot hpid
        obtain ⟨q, hq⟩ := hslot hqid
        rw [hids hp hi, hids hq hi, h.acc pid qid p q hp hq]
      · have hown : (n'.block? v k).map Block.form =
            some (c.cls, mask, (coresOf mask).map fun l => (l, (n₂.vnf v).nPorts, (n₂.vnf v).nPorts)) := by
          rw [hd.drawing.form, block?_remasked hb, if_pos rfl, Option.map_some, remasked_form]
        obtain ⟨b', hb', hform⟩ := Option.map_eq_some_iff.mp hown
        simp only [Block.form, Prod.mk.injEq] at hform
        have hlen : b'.vcores.length = popcnt32 mask := by
          simpa [popcnt32] using congrArg List.length hform.2.2
        rw [aid_eq_none hb' (hlen ▸ Nat.not_lt.mp hi), aid_eq_none hb' (hlen ▸ Nat.not_lt.mp hi)]
    · -- another block holds what it held
      have hother (q : Nat) : n'.aid true v q w = n₂.aid true v q w := by
        rw [hd.drawing.other true q w hw, aid, block?_remasked hb, if_neg hw, aid]
      rw [Vnf.nPorts, hports'] at hpid hqid
      rw [hother, hother, h.ids w pid hpid qid hqid]

end Pacing

/-! ### Between a reset and the next slot -/

/-- The classes of the blocks, and how many slots there are. -/
def shape (v : Nat) (n : Nfvi) : List BlockClass × Nat := ((n.vnf v).blocks.map Block.cls, (n.vnf v).nPorts)

/-- The ids of `v` are in order: they differ within a port, and are the same at all ports. -/
structure Ordered (n : Nfvi) (v : Nat) (x : List BlockClass × Nat) : Prop where
  shaped : n.shape v = x
  polls : n.PollsIn v
  holding : n.Holding v
  inStep : n.InStep v

section Ordered
variable {n n' : Nfvi} {v w bid : Nat} {b : Block} {mask : BitVec 32} {x : List BlockClass × Nat}

theorem allowsOwn_shape (v w : Nat) : AllowsOwn w fun n n' => n'.shape v = n.shape v where
  port _ _ _ _ _ _ := rfl
  block n bid f hf _ := by
    by_cases hv : v = w
    · subst hv
      have hcls : ((n.vnf v).blocks.modify bid f).map Block.cls = (n.vnf v).blocks.map Block.cls :=
        map_blocks_modify (fun b => (hf b).2) _ _
      simp [shape, editBlock, editVnf, Vnf.nPorts, hcls]
    · simp [shape, editBlock, editVnf, hv]

theorem pollsIn_of_shape (h : n'.shape v = n.shape v) (hpolls : n.PollsIn v) : n'.PollsIn v := by
  intro bid b hb portId hcls
  simp only [shape, Prod.mk.injEq] at h
  have hmap := congrArg (·[bid]?) h.1
  simp only [List.getElem?_map] at hmap
  rw [show (n'.vnf v).blocks[bid]? = some b from hb] at hmap
  obtain ⟨c, hc, hcls'⟩ := Option.map_eq_some_iff.mp hmap.symm
  rw [h.2]
  exact hpolls bid c hc portId (hcls'.trans hcls)

/-- Slots, counters of ports, masks and vcores are what they were. -/
theorem Ordered.same (h : n.Ordered v x) (hports : (n'.vnf v).ports = (n.vnf v).ports)
    (hblock : ∀ k, (n'.block? v k).map core = (n.block? v k).map core)
    (hacc : ∀ p, some p ∈ (n.vnf v).ports → ∀ tx, (n'.port p).nAcc tx = (n.port p).nAcc tx) : n'.Ordered v x := by
  have hnPorts : (n'.vnf v).nPorts = (n.vnf v).nPorts := congrArg List.length hports
  have hcls : (n'.vnf v).blocks.map Block.cls = (n.vnf v).blocks.map Block.cls := by
    apply List.ext_getElem?
    intro k
    have hfst := congrArg (Option.map Prod.fst) (hblock k)
    rw [Option.map_map, Option.map_map] at hfst
    rw [List.getElem?_map, List.getElem?_map]
    exact hfst
  have hshape : n'.shape v = n.shape v := by rw [shape, hcls, hnPorts, shape]
  refine ⟨hshape.trans h.shaped, pollsIn_of_shape hshape h.polls, ?_, hports ▸ h.inStep.full, fun pid qid p q hp hq => ?_,
    fun w pid hpid qid hqid => ?_⟩
  · refine h.holding.reslot hblock hnPorts fun pid p hp => .inr ?_
    rw [hports] at hp
    exact ⟨hp, hacc p (List.mem_of_getElem? hp)⟩
  · rw [hports] at hp hq
    rw [show (n'.port p).nTxacc = (n.port p).nTxacc from hacc p (List.mem_of_getElem? hp) true,
      show (n'.port q).nTxacc = (n.port q).nTxacc from hacc q (List.mem_of_getElem? hq) true]
    exact h.inStep.acc pid qid p q hp hq
  · rw [hnPorts] at hpid hqid
    rw [aid_same hblock, aid_same hblock, h.inStep.ids w pid hpid qid hqid]

theorem Ordered.setCoremask (h : n.Ordered v x) (hdistinct : n.Distinct v) (bid : Nat) (mask : BitVec 32) :
    Meets (Nfvi.setCoremask v bid mask) n (fun _ n' => n'.Ordered v x) fun n' => n'.Ordered v x := by
  have hshape := (allowsOwn_shape v v).setCoremask bid mask n
  cases hb : n.block? v bid with
  | none =>
    refine Proc.meets_bind (vnfAt_meets v n) ?_
    rintro y n₁ ⟨rfl, rfl⟩
    rw [if_neg h.inStep.full]
    refine Proc.meets_bind_of_ret (fun w n' hw => ?_) fun c n' hc => ?_
    · exact (within_blockAt (R := fun n n' => n.Ordered v x → n'.Ordered v x) v bid _).2 w n' hw h
    · cases hb.symm.trans (blockAt_ret hc).2
  | some b =>
    have hholding : Meets (Nfvi.setCoremask v bid mask) n (fun _ n' => n'.Holding v) fun _ => False :=
      h.holding.setCoremask hdistinct h.polls hb
    have hinStep : Meets (Nfvi.setCoremask v bid mask) n (fun _ n' => n'.InStep v) fun _ => False :=
      h.inStep.setCoremask hdistinct h.polls hb
    refine ⟨fun a n' hret => ?_, fun w n' hw => (hholding.2 w n' hw).elim⟩
    have hshape' := hshape.1 a n' hret
    exact ⟨hshape'.trans h.shaped, pollsIn_of_shape hshape' h.polls, hholding.1 a n' hret, hinStep.1 a n' hret⟩

theorem inStep_afterReset (hfull : none ∉ (n.vnf v).ports) : (n.afterReset v).InStep v := by
  have hports : ((n.afterReset v).vnf v).ports = (n.vnf v).ports := by simp [afterReset, restart]
  have hzero {pid p : Nat} (hp : ((n.afterReset v).vnf v).ports[pid]? = some (some p)) :
      ((n.afterReset v).port p).nTxacc = 0 := by
    rw [hports] at hp
    simp only [afterReset, restart, if_pos (List.mem_of_getElem? hp)]
    rfl
  have hnone (w : Nat × Nat) (q : Nat) : (n.afterReset v).aid true v q w = none := by
    have hblock : (n.afterReset v).block? v w.1 = (n.block? v w.1).map (n.settle v) := by
      simp [afterReset, restart, block?]
    rw [aid, hblock]
    cases n.block? v w.1 <;> rfl
  refine ⟨hports ▸ hfull, fun pid qid p q hp hq => ?_, fun w pid _ qid _ => ?_⟩
  · rw [hzero hp, hzero hq]
  · rw [hnone, hnone]

/-- A reset that comes back leaves the ids in order, if it finds a port in every slot. -/
theorem ordered_reset (hfull : none ∉ (n.vnf v).ports) (hdistinct : n.Distinct v) :
    Meets (Nfvi.reset v) n (fun _ n' => n'.Ordered v (n.shape v)) fun _ => ¬n.PollsIn v := by
  have hfilled : Meets (Nfvi.reset v) n (fun _ n' => Filled n' v) fun _ => ¬n.PollsIn v :=
    reset_meets_full (fun hno _ => hno) hfull hdistinct
  refine ⟨fun ret n' hret => ?_, hfilled.2⟩
  have hv : v ∈ n.vnfs := by
    by_contra hv
    rw [Nfvi.reset, Proc.bind_crash (vnfAt_of_not_mem hv)] at hret
    cases hret
  have hreturns := reset_returnsIff hv hfull
  obtain ⟨-, heq⟩ := (hreturns.returns (hreturns.iff.mp ⟨ret, n', hret⟩)).of_ret hret
  have hn' := hfilled.1 ret n' hret
  exact ⟨((allowsOwn_shape v v).reset n).1 ret n' hret, hn'.polls, hn'.holding, heq ▸ inStep_afterReset hfull⟩

theorem Ordered.reset (h : n.Ordered v x) (hdistinct : n.Distinct v) :
    Meets (Nfvi.reset v) n (fun _ n' => n'.Ordered v x) fun n' => n'.Ordered v x := by
  have hmeets := ordered_reset h.inStep.full hdistinct
  exact ⟨fun ret n' hret => h.shaped ▸ hmeets.1 ret n' hret, fun w n' hw => absurd h.polls (hmeets.2 w n' hw)⟩

/-- A call for another VNF leaves the counters of the ports of `v` alone. -/
theorem acc_invoke (hatt : n.wiring.Attached) (hv : v ∈ n.vnfs) {c : Call} (hc : ¬configures c v) :
    Meets (Sys.invoke c) n
      (fun _ n' => ∀ p, some p ∈ (n.vnf v).ports → ∀ tx, (n'.port p).nAcc tx = (n.port p).nAcc tx)
      fun n' => ∀ p, some p ∈ (n.vnf v).ports → ∀ tx, (n'.port p).nAcc tx = (n.port p).nAcc tx := by
  have htoll {α : Type} {q : Proc Nfvi α} {w : Nat} (hw : w ∈ n.vnfs) (hne : ¬v = w) (hq : Proc.Within (Toll w) q) :
      Meets q n (fun _ n' => ∀ p, some p ∈ (n.vnf v).ports → ∀ tx, (n'.port p).nAcc tx = (n.port p).nAcc tx)
        fun n' => ∀ p, some p ∈ (n.vnf v).ports → ∀ tx, (n'.port p).nAcc tx = (n.port p).nAcc tx :=
    ⟨fun a n' hret => ((hq n).1 a n' hret).acc_others hatt hv hw hne,
      fun x n' hthrow => ((hq n).2 x n' hthrow).acc_others hatt hv hw hne⟩
  cases c with
  | reset w =>
    by_cases hw : w ∈ n.vnfs
    · exact htoll hw hc (Proc.within_bind (allowsOwn_toll w).reset fun _ => Proc.within_pure _)
    · exact Proc.meets_bind_crash (Proc.bind_crash (vnfAt_of_not_mem hw))
  | setCoremask w bid mask =>
    by_cases hw : w ∈ n.vnfs
    · exact htoll hw hc (Proc.within_bind ((allowsOwn_toll w).setCoremask bid mask) fun _ => Proc.within_pure _)
    · exact Proc.meets_bind_crash (Proc.bind_crash (vnfAt_of_not_mem hw))
  | deploy w =>
    have hstill : Proc.Within Still (deploy w) :=
      Proc.within_bind (allowsTables_still w).deployPorts fun _ => Proc.within_ite (Proc.within_pure _) (Proc.within_pure _)
    exact ⟨fun nx n' hret p hp => ((hstill n).1 nx n' hret).acc p (lt_of_slot hatt hv hp),
      fun x n' hthrow p hp => ((hstill n).2 x n' hthrow).acc p (lt_of_slot hatt hv hp)⟩
  | undeploy w =>
    refine Proc.meets_bind (vnfAt_meets w n) ?_
    rintro _ n' ⟨rfl, -⟩
    exact Proc.meets_pure fun _ _ _ => rfl

theorem Ordered.kept {slotsOk blocksOk : Nat → Prop} {tablesOk : Prop} (h : n.Ordered v x) (hatt : n.wiring.Attached)
    (hv : v ∈ n.vnfs) (hk : Kept slotsOk blocksOk tablesOk n n') (hslot : ¬slotsOk v) (hblock : ¬blocksOk v)
    (hacc : ∀ p, some p ∈ (n.vnf v).ports → ∀ tx, (n'.port p).nAcc tx = (n.port p).nAcc tx) : n'.Ordered v x := by
  have hold : ¬n.next ≤ v := Nat.not_le.mpr (hatt.vnf_lt v hv)
  have hblocks := (hk.blocks v).resolve_right (not_or_intro hblock fun hnew => hold hnew.1)
  refine h.same ((hk.slots v).resolve_right (not_or_intro hslot hold)) (fun k => ?_) hacc
  rw [block?, block?, hblocks]

theorem Ordered.resetPut (h : n.Ordered v x) (hdistinct : n.Distinct v) {iname : String}
    (hv : n.findVnf iname = some v) :
    Meets (Nfvi.resetPut iname) n (fun _ n' => n'.Ordered v x) fun n' => n'.Ordered v x := by
  refine Proc.meets_get_bind ?_
  rw [hv]
  dsimp only
  split_ifs
  · exact Proc.meets_pure h
  · refine Proc.meets_bind (h.reset hdistinct) fun ret n' hn' => ?_
    split_ifs <;> exact Proc.meets_pure hn'

/-- **Every request keeps the ids in order**, unless it changes a slot. -/
theorem Ordered.handle (h : n.Ordered v x) (hatt : n.wiring.Attached) (hv : v ∈ n.vnfs) (th : Native Task) {r : Request}
    (hslot : ¬n.Open (n.slotGate r) v) :
    Meets (Nfvi.handle th r) n (fun _ n' => n'.Ordered v x) fun n' => n'.Ordered v x := by
  have hdistinct : n.Distinct v := hatt.slot_inj v hv
  by_cases hblock : n.blockGate r = some v
  · cases r with
    | coremaskPut iname blockId mask =>
      apply coremaskPut_meets h
      intro u bid b m hu hb _
      cases hu.symm.trans hblock
      exact h.setCoremask hdistinct bid m
    | resetPut iname => exact h.resetPut hdistinct hblock
    | _ => cases hblock
  · have hkept := kept_handle th r n
    have hacc := acc_handle hatt hv th hblock
    exact ⟨fun nx n' hret => h.kept hatt hv (hkept.1 nx n' hret) hslot (fun hopen => hblock hopen.1) (hacc.1 nx n' hret),
      fun w n' hw => h.kept hatt hv (hkept.2 w n' hw) hslot (fun hopen => hblock hopen.1) (hacc.2 w n' hw)⟩

theorem Ordered.invoke (h : n.Ordered v x) (hatt : n.wiring.Attached) (hv : v ∈ n.vnfs) (c : Call) :
    Meets (Sys.invoke c) n (fun _ n' => n'.Ordered v x) fun n' => n'.Ordered v x := by
  have hdistinct : n.Distinct v := hatt.slot_inj v hv
  by_cases hc : configures c v
  · cases c with
    | reset w =>
      obtain rfl : v = w := hc
      exact Proc.meets_bind (h.reset hdistinct) fun _ _ h' => Proc.meets_pure h'
    | setCoremask w bid mask =>
      obtain rfl : v = w := hc
      exact Proc.meets_bind (h.setCoremask hdistinct bid mask) fun _ _ h' => Proc.meets_pure h'
    | deploy w | undeploy w => exact hc.elim
  · have hkept := kept_invoke c n
    have hacc := acc_invoke hatt hv hc
    exact ⟨fun nx n' hret => h.kept hatt hv (hkept.1 nx n' hret) id hc (hacc.1 nx n' hret),
      fun w n' hw => h.kept hatt hv (hkept.2 w n' hw) id hc (hacc.2 w n' hw)⟩

theorem Ordered.editBlock (h : n.Ordered v x) (w bid : Nat) {f : Block → Block} (hf : ∀ b, core (f b) = core b) :
    (n.editBlock w bid f).Ordered v x :=
  h.same (ports_of_wiring (wiring_editBlock n w bid f) v) (core_editBlock hf n w v) fun _ _ _ => rfl

end Ordered

end Nfvi

/-! ### Runs -/

/-- A VNF with a port in a slot is not deleted. -/
theorem Wiring.mem_vnfs_of_slot {g : Wiring.Guard} {w w' : Wiring} (h : w.Moved g w') {v pid p : Nat}
    (hv : v ∈ w.vnfs) (hslot : (w.slots v)[pid]? = some (some p)) : v ∈ w'.vnfs := by
  rcases h with rfl | hm
  · exact hv
  · cases hm with
    | addVnf => exact List.mem_append_left _ hv
    | delVnf u hu hempty =>
      refine (List.mem_erase_of_ne ?_).mpr hv
      rintro rfl
      cases hempty _ (List.mem_of_getElem? hslot)
    | _ => exact hv

theorem ResetDone.ret {v : Nat} {s t : Sys} (h : ResetDone v s t) :
    ∃ ret, 0 ≤ ret ∧ Nfvi.reset v s.nfvi = .ret ret t.nfvi := by
  cases h with
  | @put iname msg hv hstep hdone =>
    obtain ⟨-, ⟨nx, n, hrun, rfl⟩ | ⟨w, n, hrun, rfl⟩⟩ := Sys.serve_some hstep
    · change (Proc.get >>= _) s.nfvi = _ at hrun
      rw [Proc.get_bind, hv] at hrun
      dsimp only at hrun
      split_ifs at hrun
      · cases hrun
        cases hdone
      · obtain ⟨ret, n', hret, hrun⟩ := Proc.bind_eq_ret hrun
        split_ifs at hrun with hneg
        · cases hrun
          cases hdone
        · cases hrun
          exact ⟨ret, Int.not_lt.mp hneg, hret⟩
    · cases hdone
  | call hstep hdone =>
    obtain ⟨-, ⟨nx, n, hrun, rfl⟩ | ⟨w, n, hrun, rfl⟩⟩ := Sys.serve_some hstep
    · obtain ⟨ret, n', hret, hnx⟩ := Proc.bind_eq_ret hrun
      cases hnx
      simp only [Sys.ctrlOf, Ctrl.idle.injEq, Option.some.injEq, Done.returned.injEq] at hdone
      exact ⟨ret, hdone.ge, hret⟩
    · cases hdone

namespace Sys

/-- VNF `v` is there, and its ids are in order. -/
structure InOrder (s : Sys) (v : Nat) (x : List BlockClass × Nat) : Prop where
  attached : s.nfvi.wiring.Attached
  live : v ∈ s.nfvi.vnfs
  slots : 0 < x.2
  ordered : s.nfvi.Ordered v x

variable {s t u : Sys} {v : Nat} {x : List BlockClass × Nat} {l : Label}

theorem InOrder.step (h : s.InOrder v x) (hrule : ¬s.Plugs v l) (hs : s.step l = some t) : t.InOrder v x := by
  have hmoved := step_moved .trivial (fun r _ => Nfvi.admits_trivial _ r) hs
  have hlive : v ∈ t.nfvi.vnfs := by
    have hlen : 0 < (s.nfvi.vnf v).ports.length := by
      have hshaped : (s.nfvi.vnf v).nPorts = x.2 := congrArg Prod.snd h.ordered.shaped
      exact h.slots.trans_eq hshaped.symm
    cases hp : (s.nfvi.vnf v).ports[0] with
    | none => exact absurd (hp ▸ List.getElem_mem hlen) h.ordered.inStep.full
    | some p =>
      have hslot : (s.nfvi.vnf v).ports[0]? = some (some p) := by
        rw [List.getElem?_eq_getElem hlen, hp]
      exact Wiring.mem_vnfs_of_slot hmoved h.live hslot
  refine ⟨h.attached.moved hmoved, hlive, h.slots, ?_⟩
  have hedit (w bid : Nat) {f : Block → Block} (hf : ∀ b, Nfvi.core (f b) = Nfvi.core b) :
      (s.nfvi.editBlock w bid f).Ordered v x := h.ordered.editBlock w bid hf
  cases l with
  | request r =>
    have hhandle := h.ordered.handle h.attached h.live s.native hrule
    obtain ⟨-, ⟨nx, n, hp, rfl⟩ | ⟨w, n, hp, rfl⟩⟩ := serve_some hs
    · exact hhandle.1 nx n hp
    · exact hhandle.2 w n hp
  | call c =>
    have hinvoke := h.ordered.invoke h.attached h.live c
    obtain ⟨-, ⟨nx, n, hp, rfl⟩ | ⟨w, n, hp, rfl⟩⟩ := serve_some hs
    · exact hinvoke.1 nx n hp
    · exact hinvoke.2 w n hp
  | ctl =>
    exact (ctl_some hs).nfvi (P := fun n => n.Ordered v x) h.ordered
      (fun w bid i l => hedit w bid (f := setTid i l) fun _ => rfl)
      fun w bid running => hedit w bid (f := setRunning running) fun _ => rfl
  | wrk j =>
    exact (wrk_some hs).nfvi (P := fun n => n.Ordered v x) h.ordered
      fun w bid running => hedit w bid (f := setRunning running) fun _ => rfl

theorem inOrder_of_reset (hatt : s.nfvi.wiring.Attached) (hslots : 0 < (s.nfvi.vnf v).nPorts) (h : ResetDone v s t)
    (hatt' : t.nfvi.wiring.Attached) : t.InOrder v (s.nfvi.shape v) := by
  obtain ⟨ret, hpos, hret⟩ := h.ret
  have hv : v ∈ s.nfvi.vnfs := by
    by_contra hv
    rw [Nfvi.reset, Proc.bind_crash (Nfvi.vnfAt_of_not_mem hv)] at hret
    cases hret
  have hfull : none ∉ (s.nfvi.vnf v).ports := by
    intro hslot
    obtain ⟨y, n, hy, hrun⟩ := Proc.bind_eq_ret hret
    obtain ⟨rfl, rfl⟩ := Nfvi.vnfAt_ret hy
    obtain ⟨_, n', -, hrun⟩ := Proc.bind_eq_ret hrun
    rw [if_pos hslot] at hrun
    cases hrun
    exact absurd hpos (by decide)
  have hdistinct : s.nfvi.Distinct v := hatt.slot_inj v hv
  have hvnfs : t.nfvi.vnfs = s.nfvi.vnfs :=
    congrArg Wiring.vnfs (((Nfvi.allows_wiring v).own.reset s.nfvi).1 ret t.nfvi hret)
  exact ⟨hatt', hvnfs.symm ▸ hv, hslots, (Nfvi.ordered_reset hfull hdistinct).1 ret t.nfvi hret⟩

/-- **From a reset on, and until a slot of it changes, the ids of a VNF are in order.** -/
theorem ordered_of_run {nSocket nLcore : Nat} {catalog : List (String × VnfClass)} {ls ms : List Label}
    (h : Runs step Always (.init nSocket nLcore catalog) ls s) (hslots : 0 < (s.nfvi.vnf v).nPorts)
    (hreset : ResetDone v s t) (hrun : Runs step (fun s l => ¬s.Plugs v l) t ms u) :
    u.nfvi.Ordered v (s.nfvi.shape v) := by
  have hatt := attached_of_run h
  have hatt' : t.nfvi.wiring.Attached := by
    obtain ⟨ret, -, hret⟩ := hreset.ret
    exact (((Nfvi.allows_wiring v).own.reset s.nfvi).1 ret t.nfvi hret).symm ▸ hatt
  exact (hrun.invariant (I := fun s' : Sys => s'.InOrder v (s.nfvi.shape v)) (inOrder_of_reset hatt hslots hreset hatt')
    fun _ _ _ hI hrule hs => hI.step hrule hs).ordered

end Sys

end Susanow
