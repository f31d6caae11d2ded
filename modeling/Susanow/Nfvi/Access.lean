import Mathlib.Tactic.Tauto
import Susanow.Base.Tickets
import Susanow.Nfvi.Resetting

/-! Access ids.

`set_coremask` gives the block a vcore for each bit of the mask and lets each vcore draw
ids from the counters of the ports. After a reset the counters are zero and no block has a
vcore; every block draws once, while its mask is still zero, so that the ids of a port
number the vcores that hold them. -/
namespace Susanow

/-- Whether the block receives from a port. It sends to all of them. -/
def Block.receives (b : Block) (pid : Nat) : Bool :=
  match b.cls with
  | .l2fwdPort portId => portId == pid
  | _ => true

theorem Block.receives_of_ne {b : Block} (hcls : ∀ portId, b.cls ≠ .l2fwdPort portId) (pid : Nat) :
    b.receives pid = true := by
  unfold receives
  split
  · next portId hc => exact absurd hc (hcls portId)
  · rfl

/-- The access ids of one direction. -/
def Vcore.accs (tx : Bool) (vc : Vcore) : List Nat := bif tx then vc.portTxAcc else vc.portRxAcc

def Vcore.store (tx : Bool) (pid a : Nat) (vc : Vcore) : Vcore :=
  bif tx then {vc with portTxAcc := vc.portTxAcc.set pid a} else {vc with portRxAcc := vc.portRxAcc.set pid a}

/-- A vcore less its ids, and a block less what is counted. -/
def Vcore.form (vc : Vcore) : Nat × Nat × Nat := (vc.lcoreId, vc.portRxAcc.length, vc.portTxAcc.length)

def Block.form (b : Block) : BlockClass × BitVec 32 × List (Nat × Nat × Nat) :=
  (b.cls, b.coremask, b.vcores.map Vcore.form)

theorem Vcore.form_store (tx : Bool) (pid a : Nat) (vc : Vcore) : (vc.store tx pid a).form = vc.form := by
  cases tx <;> simp [Vcore.store, Vcore.form]

theorem Vcore.accs_store (tx t : Bool) (pid a : Nat) (vc : Vcore) :
    (vc.store tx pid a).accs t = if t = tx then (vc.accs t).set pid a else vc.accs t := by
  cases tx <;> cases t <;> rfl

def VnfPort.nAcc (tx : Bool) (p : VnfPort) : Nat := bif tx then p.nTxacc else p.nRxacc

def VnfPort.request (tx : Bool) (p : VnfPort) : VnfPort := bif tx then p.requestTxAccess else p.requestRxAccess

theorem VnfPort.nAcc_request (tx t : Bool) (p : VnfPort) :
    (p.request tx).nAcc t = if t = tx then p.nAcc t + 1 else p.nAcc t := by
  cases tx <;> cases t <;> rfl

theorem set_map_of_getElem? {α β : Type} {g : α → β} {xs : List α} {i : Nat} {x : α} (h : xs[i]? = some x) :
    (xs.map g).set i (g x) = xs.map g := by
  obtain ⟨hi, rfl⟩ := List.getElem?_eq_some_iff.mp h
  rw [← List.map_set, List.set_getElem_self]

namespace Nfvi
open Proc (Meets)

/-- The id that vcore `w.2` of block `w.1` has stored for port `pid`. -/
def aid (n : Nfvi) (tx : Bool) (v pid : Nat) (w : Nat × Nat) : Option Nat :=
  (n.block? v w.1).bind fun b => b.vcores[w.2]?.bind fun vc => (vc.accs tx)[pid]?

/-! ### One access -/

/-- Vcore `i` of block `bid` has drawn an id of port `pid`, which is `p`. -/
structure Granted (tx : Bool) (v bid i pid p : Nat) (n n' : Nfvi) : Prop where
  wiring : n'.wiring = n.wiring
  form : ∀ k, (n'.block? v k).map Block.form = (n.block? v k).map Block.form
  aid : ∀ t q w, n'.aid t v q w =
    if t = tx ∧ q = pid ∧ w = (bid, i) then some ((n.port p).nAcc tx) else n.aid t v q w
  acc : ∀ t q, (n'.port q).nAcc t = if t = tx ∧ q = p then (n.port q).nAcc t + 1 else (n.port q).nAcc t

section Reads
variable {n : Nfvi} {v bid i pid p : Nat} {E : Nfvi → Prop}

theorem vnfAt_meets (v : Nat) (n : Nfvi) : Meets (vnfAt v) n (fun x n' => n' = n ∧ x = n.vnf v) E := by
  by_cases hv : v ∈ n.vnfs
  · exact Proc.meets_of_ret (vnfAt_of_mem hv) ⟨rfl, rfl⟩
  · exact Proc.meets_of_crash (vnfAt_of_not_mem hv)

theorem portAt_meets (p : Nat) (n : Nfvi) : Meets (portAt p) n (fun x n' => n' = n ∧ x = n.port p) E := by
  by_cases hp : p ∈ n.ports
  · exact Proc.meets_of_ret (portAt_of_mem hp) ⟨rfl, rfl⟩
  · exact Proc.meets_of_crash (portAt_of_not_mem hp)

theorem slotAt_meets (hslot : (n.vnf v).ports[pid]? = some (some p)) :
    Meets (slotAt v pid) n (fun q n' => n' = n ∧ q = p) E := by
  refine Proc.meets_bind (vnfAt_meets v n) ?_
  rintro x n' ⟨rfl, rfl⟩
  rw [hslot]
  exact Proc.meets_pure ⟨rfl, rfl⟩

theorem blockAt_meets {b : Block} (hb : n.block? v bid = some b) :
    Meets (blockAt v bid) n (fun c n' => n' = n ∧ c = b) E := by
  refine Proc.meets_bind (vnfAt_meets v n) ?_
  rintro x n' ⟨rfl, rfl⟩
  rw [show (n'.vnf v).blocks[bid]? = some b from hb]
  exact Proc.meets_pure ⟨rfl, rfl⟩

theorem vcoreAt_meets {b : Block} {vc : Vcore} (hb : n.block? v bid = some b) (hvc : b.vcores[i]? = some vc) :
    Meets (vcoreAt v bid i) n (fun c n' => n' = n ∧ c = vc) E := by
  refine Proc.meets_bind (blockAt_meets hb) ?_
  rintro c n' ⟨rfl, rfl⟩
  rw [hvc]
  exact Proc.meets_pure ⟨rfl, rfl⟩

end Reads

/-- The access as it is written: the block's counter of the socket, the port's counter, and
the id in the vcore. -/
theorem granted_of_edits {tx : Bool} {v bid i pid p a : Nat} {n : Nfvi} {b : Block} {vc : Vcore}
    {f : Block → Block} (hf : ∀ b, (f b).cls = b.cls ∧ (f b).coremask = b.coremask ∧ (f b).vcores = b.vcores)
    (hrun : ∀ b, (f b).running = b.running) (hfit : ∀ b, b.Fits → (f b).Fits)
    (hb : n.block? v bid = some b) (hvc : b.vcores[i]? = some vc) (hlen : pid < (vc.accs tx).length)
    (ha : a = (n.port p).nAcc tx) :
    Granted tx v bid i pid p n (((n.editBlock v bid f).editPort p (VnfPort.request tx)).editBlock v bid
      fun b => {b with vcores := b.vcores.set i (vc.store tx pid a)}) := by
  have hi : i < b.vcores.length := (List.getElem?_eq_some_iff.mp hvc).1
  have hblock (k : Nat) : (((n.editBlock v bid f).editPort p (VnfPort.request tx)).editBlock v bid
      fun b => {b with vcores := b.vcores.set i (vc.store tx pid a)}).block? v k =
      if k = bid then some {f b with vcores := b.vcores.set i (vc.store tx pid a)} else n.block? v k := by
    rw [block?_editBlock, show ((n.editBlock v bid f).editPort p (VnfPort.request tx)).block? v k =
      (n.editBlock v bid f).block? v k from rfl, block?_editBlock]
    by_cases hk : k = bid
    · subst hk
      simp [hb, (hf b).2.2]
    · simp [hk]
  have hall := allows_wiring v
  refine ⟨?_, fun k => ?_, fun t q w => ?_, fun t q => ?_⟩
  · have hfirst := hall.block n bid f hrun hfit
    have hport := hall.port (n.editBlock v bid f) p (VnfPort.request tx) fun x => by
      cases tx <;> exact ⟨rfl, rfl, rfl⟩
    have hstore := hall.block ((n.editBlock v bid f).editPort p (VnfPort.request tx)) bid
      (fun b => {b with vcores := b.vcores.set i (vc.store tx pid a)}) (fun _ => rfl) fun _ hb => hb.trans (by simp)
    exact hstore.trans (hport.trans hfirst)
  · rw [hblock]
    by_cases hk : k = bid
    · subst hk
      rw [if_pos rfl, hb, Option.map_some, Option.map_some, Block.form, Block.form, (hf b).1, (hf b).2.1,
        List.map_set, Vcore.form_store, set_map_of_getElem? hvc]
    · rw [if_neg hk]
  · obtain ⟨k, j⟩ := w
    unfold aid
    rw [hblock]
    by_cases hk : k = bid
    · subst hk
      simp only [if_true, hb, Option.bind_some]
      by_cases hj : j = i
      · subst hj
        simp only [List.getElem?_set_self hi, hvc, Option.bind_some, Vcore.accs_store, and_true]
        by_cases ht : t = tx
        · subst ht
          by_cases hq : q = pid
          · subst hq
            simp [hlen, ha]
          · simp [hq, List.getElem?_set_ne (Ne.symm hq)]
        · simp [ht]
      · simp [hj, List.getElem?_set_ne (Ne.symm hj)]
    · simp [hk]
  · show (Function.update n.port p ((n.port p).request tx) q).nAcc t = _
    by_cases hq : q = p
    · subst hq
      simp [VnfPort.nAcc_request]
    · simp [hq]

section Grant
variable {n : Nfvi} {v bid i pid p : Nat} {b : Block} {vc : Vcore} {E : Nfvi → Prop}

theorem editBlock_id (n : Nfvi) (v bid : Nat) : n.editBlock v bid (fun b => b) = n := by
  have hmodify : (n.vnf v).blocks.modify bid (fun b => b) = (n.vnf v).blocks := List.modify_id bid _
  rw [editBlock, editVnf, hmodify, Function.update_eq_self]

theorem grantRx_meets (hslot : (n.vnf v).ports[pid]? = some (some p)) (hb : n.block? v bid = some b)
    (hvc : b.vcores[i]? = some vc) (hlen : pid < vc.portRxAcc.length) :
    Meets (grantRx v bid i pid) n (fun _ n' => Granted false v bid i pid p n n') E := by
  refine Proc.meets_bind (Q := fun a n' => a = (n.port p).nRxacc ∧ ∃ aff : List Nat → List Nat,
    n' = (n.editBlock v bid fun b => {b with socketAffinity := aff b.socketAffinity}).editPort p
      VnfPort.requestRxAccess) ?_ ?_
  · refine Proc.meets_bind (slotAt_meets hslot) ?_
    rintro q n₁ ⟨rfl, rfl⟩
    refine Proc.meets_bind (portAt_meets q n₁) ?_
    rintro port n₂ ⟨rfl, rfl⟩
    refine Proc.meets_bind (blockAt_meets hb) ?_
    rintro c n₃ ⟨rfl, rfl⟩
    split_ifs
    · exact Proc.meets_of_ret rfl ⟨rfl, _, rfl⟩
    · exact Proc.meets_crash
  · rintro a n' ⟨rfl, aff, rfl⟩
    refine Proc.meets_bind (vcoreAt_meets (b := {b with socketAffinity := aff b.socketAffinity}) ?_ hvc) ?_
    · show (n.editBlock v bid _).block? v bid = _
      rw [block?_editBlock, if_pos ⟨rfl, rfl⟩, hb, Option.map_some]
    · rintro c n₁ ⟨rfl, rfl⟩
      rw [if_pos hlen]
      refine Proc.meets_of_ret rfl ?_
      exact granted_of_edits (fun _ => ⟨rfl, rfl, rfl⟩) (fun _ => rfl) (fun _ h => h) hb hvc hlen rfl

theorem grantTx_meets (hslot : (n.vnf v).ports[pid]? = some (some p)) (hb : n.block? v bid = some b)
    (hvc : b.vcores[i]? = some vc) (hlen : pid < vc.portTxAcc.length) :
    Meets (grantTx v bid i pid) n (fun _ n' => Granted true v bid i pid p n n') E := by
  refine Proc.meets_bind (Q := fun a n' => a = (n.port p).nTxacc ∧ n' = n.editPort p VnfPort.requestTxAccess) ?_ ?_
  · refine Proc.meets_bind (slotAt_meets hslot) ?_
    rintro q n₁ ⟨rfl, rfl⟩
    refine Proc.meets_bind (portAt_meets q n₁) ?_
    rintro port n₂ ⟨rfl, rfl⟩
    exact Proc.meets_of_ret rfl ⟨rfl, rfl⟩
  · rintro a n' ⟨rfl, rfl⟩
    refine Proc.meets_bind (vcoreAt_meets (b := b) hb hvc) ?_
    rintro c n₁ ⟨rfl, rfl⟩
    rw [if_pos hlen]
    refine Proc.meets_of_ret rfl ?_
    have hgranted : Granted true v bid i pid p n _ :=
      granted_of_edits (p := p) (f := fun b => b) (fun _ => ⟨rfl, rfl, rfl⟩) (fun _ => rfl)
      (fun _ h => h) hb hvc hlen rfl
    rwa [editBlock_id] at hgranted

end Grant

/-! ### The loops -/

def grant (tx : Bool) (v bid i pid : Nat) : Proc Nfvi Unit :=
  bif tx then grantTx v bid i pid else grantRx v bid i pid

/-- Block `bid` has `k` vcores to draw ids for. -/
def Rows (n : Nfvi) (v bid k : Nat) : Prop :=
  ∃ cls mask rows, (n.block? v bid).map Block.form = some (cls, mask, rows) ∧ rows.length = k ∧
    ∀ r ∈ rows, r.2 = ((n.vnf v).nPorts, (n.vnf v).nPorts)

theorem Rows.same {n n' : Nfvi} {v bid k : Nat} (h : Rows n v bid k) (hwiring : n'.wiring = n.wiring)
    (hform : (n'.block? v bid).map Block.form = (n.block? v bid).map Block.form) : Rows n' v bid k := by
  unfold Rows
  rw [hform, Vnf.nPorts, ports_of_wiring hwiring v]
  exact h

theorem slotAt_meets_none {n : Nfvi} {v pid : Nat} {E : Nfvi → Prop} (hslot : (n.vnf v).ports[pid]? = some none) :
    Meets (slotAt v pid) n (fun _ _ => False) E := by
  refine Proc.meets_bind (vnfAt_meets v n) ?_
  rintro x n' ⟨rfl, rfl⟩
  rw [hslot]
  exact Proc.meets_crash

/-- An access returns only if there is a port in the slot, and throws never. -/
theorem grant_meets {tx : Bool} {n : Nfvi} {v bid i pid k : Nat} {E : Nfvi → Prop} (h : Rows n v bid k)
    (hi : i < k) (hpid : pid < (n.vnf v).nPorts) : Meets (grant tx v bid i pid) n
      (fun _ n' => ∃ p, (n.vnf v).ports[pid]? = some (some p) ∧ Granted tx v bid i pid p n n') E := by
  obtain ⟨cls, mask, rows, hform, hlen, hrows⟩ := h
  obtain ⟨b, hb, hbform⟩ := Option.map_eq_some_iff.mp hform
  cases hbform
  rw [List.length_map] at hlen
  have hvc := List.getElem?_eq_getElem (hlen ▸ hi)
  have htables := hrows _ (List.mem_map_of_mem (List.mem_of_getElem? hvc))
  cases hslot : (n.vnf v).ports[pid] with
  | none =>
    have hslot' : (n.vnf v).ports[pid]? = some none := by
      rw [List.getElem?_eq_getElem hpid, hslot]
    have hnone {α : Type} (f : Nat → Proc Nfvi α) : Meets (slotAt v pid >>= f) n (fun _ _ => False) E :=
      Proc.meets_bind (slotAt_meets_none hslot') fun _ _ h => h.elim
    cases tx
    · exact Proc.meets_bind (hnone _) fun _ _ h => h.elim
    · exact Proc.meets_bind (hnone _) fun _ _ h => h.elim
  | some p =>
    have hslot' : (n.vnf v).ports[pid]? = some (some p) := by
      rw [List.getElem?_eq_getElem hpid, hslot]
    cases tx with
    | false =>
      have hmeets := grantRx_meets (E := E) hslot' hb hvc (hpid.trans_eq (congrArg Prod.fst htables).symm)
      exact hmeets.weaken fun _ n' hgranted => ⟨p, hslot', hgranted⟩
    | true =>
      have hmeets := grantTx_meets (E := E) hslot' hb hvc (hpid.trans_eq (congrArg Prod.snd htables).symm)
      exact hmeets.weaken fun _ n' hgranted => ⟨p, hslot', hgranted⟩

/-- One more access of port `pid` in direction `tx`. -/
def bump (d : Bool → Nat → Nat) (tx : Bool) (pid : Nat) (t : Bool) (q : Nat) : Nat :=
  if t = tx ∧ q = pid then d t q + 1 else d t q

/-- `I d` says how things are when the first `d t pid` vcores of the block have drawn their ids of
port `pid` in direction `t`: an access of the next vcore leads from one `I` to the next. -/
structure Draws (v bid k nPorts : Nat) (I : (Bool → Nat → Nat) → Nfvi → Prop) (E : Nfvi → Prop) : Prop where
  grant : ∀ tx i pid d n, i < k → pid < nPorts → d tx pid = i → I d n →
    Meets (grant tx v bid i pid) n (fun _ n' => I (bump d tx pid) n') E
  congr : ∀ d d' n, (∀ t, ∀ q < nPorts, d t q = d' t q) → I d n → I d' n

namespace Draws
variable {v bid k nPorts : Nat} {I : (Bool → Nat → Nat) → Nfvi → Prop} {E : Nfvi → Prop} {n : Nfvi}

theorem requestAllPorts (h : Draws v bid k nPorts I E) (h0 : I (fun _ _ => 0) n) :
    Meets (requestAllPorts v bid nPorts k) n (fun _ n' => I (fun _ _ => k) n') E := by
  apply Proc.meets_forRange (fun i n' => I (fun _ _ => i) n') h0
  intro i hi n₁ hI
  have hinner := Proc.meets_forRange (E := E) (n := nPorts)
    (f := fun pid => Nfvi.grant false v bid i pid >>= fun _ => Nfvi.grant true v bid i pid)
    (fun m n' => I (fun _ q => if q < m then i + 1 else i) n') hI fun m hm n₂ hI => by
      refine Proc.meets_bind (h.grant false i m _ n₂ hi hm (if_neg (Nat.lt_irrefl m)) hI) fun _ n₃ hI => ?_
      refine (h.grant true i m _ n₃ hi hm ?_ hI).weaken fun _ n₄ hI => h.congr _ _ n₄ (fun t q _ => ?_) hI
      · simp [bump]
      · cases t <;> grind [bump]
  exact hinner.weaken fun _ n' hI => h.congr _ _ n' (fun _ q hq => if_pos hq) hI

theorem requestOnePort {portId : Nat} (h : Draws v bid k nPorts I E) (hport : portId < nPorts)
    (h0 : I (fun _ _ => 0) n) : Meets (requestOnePort v bid portId nPorts k) n
      (fun _ n' => I (fun t q => if t = true ∨ q = portId then k else 0) n') E := by
  apply Proc.meets_forRange (fun i n' => I (fun t q => if t = true ∨ q = portId then i else 0) n')
  · exact h.congr _ _ n (fun t q _ => (ite_self 0).symm) h0
  intro i hi n₁ hI
  refine Proc.meets_bind (h.grant false i portId _ n₁ hi hport (by simp) hI) fun _ n₂ hI => ?_
  have hinner := Proc.meets_forRange (E := E) (n := nPorts) (f := fun pid => Nfvi.grant true v bid i pid)
    (fun m n' => I
      (fun t q => if t = true then (if q < m then i + 1 else i) else if q = portId then i + 1 else 0) n')
    (h.congr _ _ n₂ (fun t q _ => by cases t <;> by_cases hq : q = portId <;> simp [bump, hq]) hI) fun m hm n₃ hI => by
      refine (h.grant true i m _ n₃ hi hm ?_ hI).weaken fun _ n₄ hI => h.congr _ _ n₄ (fun t q _ => ?_) hI
      · simp
      · cases t <;> grind [bump]
  refine hinner.weaken fun _ n' hI => h.congr _ _ n' (fun t q hq => ?_) hI
  cases t <;> simp [hq]

theorem setCoremaskImpl {mask : BitVec 32} {b : Block} (h : Draws v bid (popcnt32 mask) (n.vnf v).nPorts I E)
    (hb : n.block? v bid = some b) (hpolls : ∀ portId, b.cls = .l2fwdPort portId → portId < (n.vnf v).nPorts)
    (h0 : I (fun _ _ => 0) n) : Meets (setCoremaskImpl v bid mask) n
      (fun _ n' => I (fun t q => if t = true ∨ b.receives q = true then popcnt32 mask else 0) n') E := by
  refine Proc.meets_bind (vnfAt_meets v n) ?_
  rintro x n₁ ⟨rfl, rfl⟩
  refine Proc.meets_bind (blockAt_meets hb) ?_
  rintro c n₂ ⟨rfl, rfl⟩
  have hall (hcls : ∀ portId, c.cls ≠ .l2fwdPort portId) :
      Meets (Nfvi.requestAllPorts v bid (n₂.vnf v).nPorts (popcnt32 mask)) n₂ (fun _ n' => I
        (fun t q => if t = true ∨ c.receives q = true then popcnt32 mask else 0) n') E := by
    refine (h.requestAllPorts h0).weaken fun _ n' hI => h.congr _ _ n' (fun t q _ => ?_) hI
    simp [Block.receives_of_ne hcls q]
  split
  · next hc => exact hall fun portId h => by rw [hc] at h; cases h
  · next hc => exact hall fun portId h => by rw [hc] at h; cases h
  · next hc => exact hall fun portId h => by rw [hc] at h; cases h
  · next hc => exact hall fun portId h => by rw [hc] at h; cases h
  · next portId hc =>
    refine (h.requestOnePort (hpolls portId hc) h0).weaken fun _ n' hI => h.congr _ _ n' (fun t q _ => ?_) hI
    have hreceives : (c.receives q = true) = (q = portId) := by
      rw [Block.receives, hc]
      exact propext ⟨fun h => (beq_iff_eq.mp h).symm, fun h => beq_iff_eq.mpr h.symm⟩
    simp only [hreceives]

end Draws

/-- The ids of every port of the VNF number its holders, in both directions. -/
def Drawn (n : Nfvi) (v : Nat) (holders : Bool → Nat → Set (Nat × Nat)) : Prop :=
  ∀ t pid p, (n.vnf v).ports[pid]? = some (some p) →
    Numbers (n.aid t v pid) (holders t pid) ((n.port p).nAcc t)

def Distinct (n : Nfvi) (v : Nat) : Prop :=
  ∀ pid qid p : Nat, (n.vnf v).ports[pid]? = some (some p) → (n.vnf v).ports[qid]? = some (some p) → pid = qid

/-- The first `d t pid` vcores of block `bid` hold ids, too. -/
def held (holders : Bool → Nat → Set (Nat × Nat)) (bid : Nat) (d : Bool → Nat → Nat) (t : Bool) (pid : Nat) :
    Set (Nat × Nat) :=
  holders t pid ∪ {w | w.1 = bid ∧ w.2 < d t pid}

theorem Distinct.of_wiring {n n' : Nfvi} {v : Nat} (h : n.Distinct v) (hwiring : n'.wiring = n.wiring) :
    n'.Distinct v := by
  unfold Distinct
  rw [ports_of_wiring hwiring]
  exact h

/-- How far the loops of `set_coremask_impl` have come since `n`: the first `d t q` vcores of the
block have been dealt ids of port `q`. -/
structure Drawing (n : Nfvi) (v bid : Nat) (d : Bool → Nat → Nat) (n' : Nfvi) : Prop where
  wiring : n'.wiring = n.wiring
  form : ∀ k, (n'.block? v k).map Block.form = (n.block? v k).map Block.form
  other : ∀ t q w, w.1 ≠ bid → n'.aid t v q w = n.aid t v q w
  dealt : n.Distinct v → ∀ t q p, (n.vnf v).ports[q]? = some (some p) →
    Deals (n'.aid t v q) {w | w.1 = bid ∧ w.2 < d t q} ((n.port p).nAcc t) ((n'.port p).nAcc t)

section Loops
variable {n n' n'' : Nfvi} {v bid k : Nat} {d d' : Bool → Nat → Nat} {E : Nfvi → Prop}

theorem drawing_start (n : Nfvi) (v bid : Nat) : Drawing n v bid (fun _ _ => 0) n := by
  refine ⟨rfl, fun _ => rfl, fun _ _ _ _ => rfl, fun _ t q p _ => ?_⟩
  have hnone : {w : Nat × Nat | w.1 = bid ∧ w.2 < 0} = ∅ :=
    Set.eq_empty_of_forall_notMem fun w hw => Nat.not_lt_zero _ hw.2
  rw [hnone]
  exact deals_empty _ _

theorem Drawing.congr (h : Drawing n v bid d n') (hd : ∀ t, ∀ q < (n.vnf v).nPorts, d t q = d' t q) :
    Drawing n v bid d' n' := by
  refine ⟨h.wiring, h.form, h.other, fun hdistinct t q p hq => ?_⟩
  rw [← hd t q (List.getElem?_eq_some_iff.mp hq).1]
  exact h.dealt hdistinct t q p hq

theorem Drawing.granted {tx : Bool} {i pid p : Nat} (h : Drawing n v bid d n') (hi : d tx pid = i)
    (hslot : (n'.vnf v).ports[pid]? = some (some p)) (hg : Granted tx v bid i pid p n' n'') :
    Drawing n v bid (bump d tx pid) n'' := by
  refine ⟨hg.wiring.trans h.wiring, fun k => (hg.form k).trans (h.form k), fun t q w hw => ?_,
    fun hdistinct t q p' hq => ?_⟩
  · rw [hg.aid, if_neg, h.other t q w hw]
    rintro ⟨-, -, rfl⟩
    exact hw rfl
  have hdeals := h.dealt hdistinct t q p' hq
  rw [← ports_of_wiring h.wiring v] at hq
  rw [hg.acc]
  by_cases htq : t = tx ∧ q = pid
  · obtain ⟨rfl, rfl⟩ := htq
    rw [hslot] at hq
    cases hq
    have hholders : {w : Nat × Nat | w.1 = bid ∧ w.2 < bump d t q t q} =
        insert (bid, i) {w | w.1 = bid ∧ w.2 < d t q} := by
      ext ⟨k, j⟩
      simp only [bump, and_self, if_true, hi, Set.mem_ofPred_eq, Set.mem_insert_iff, Prod.mk.injEq]
      simp only [Nat.lt_succ_iff_lt_or_eq]
      tauto
    rw [if_pos ⟨rfl, rfl⟩, hholders]
    apply hdeals.draw
    · intro w hw
      rw [hg.aid, if_neg]
      rintro ⟨-, -, rfl⟩
      exact Nat.lt_irrefl i (hi ▸ hw.2)
    · rw [hg.aid, if_pos ⟨rfl, rfl, rfl⟩]
  · have hacc : ¬ (t = tx ∧ p' = p) := by
      rintro ⟨rfl, rfl⟩
      exact htq ⟨rfl, hdistinct.of_wiring h.wiring q pid p' hq hslot⟩
    have hsame : bump d tx pid t q = d t q := if_neg htq
    rw [if_neg hacc, hsame]
    apply hdeals.congr
    intro w _
    rw [hg.aid, if_neg fun hw => htq ⟨hw.1, hw.2.1⟩]

theorem drawing_draws (hrows : Rows n v bid k) : Draws v bid k (n.vnf v).nPorts (Drawing n v bid) E where
  grant tx i pid d n' hi hpid hdi h := by
    have hrows' : Rows n' v bid k := hrows.same h.wiring (h.form bid)
    have hpid' : pid < (n'.vnf v).nPorts := by
      rwa [Vnf.nPorts, ports_of_wiring h.wiring]
    refine (grant_meets hrows' hi hpid').weaken ?_
    rintro _ n'' ⟨p, hslot, hgranted⟩
    exact h.granted hdi hslot hgranted
  congr d d' n' hd h := h.congr hd

end Loops

/-! ### A new coremask -/

/-- Block `bid` of class `cls` has the vcores of `mask`, and they have drawn their ids. -/
structure Masked (n : Nfvi) (v bid : Nat) (mask : BitVec 32) (b : Block)
    (holders : Bool → Nat → Set (Nat × Nat)) (n' : Nfvi) : Prop where
  wiring : n'.wiring = n.wiring
  other : ∀ k ≠ bid, (n'.block? v k).map Block.form = (n.block? v k).map Block.form
  own : (n'.block? v bid).map Block.form =
    some (b.cls, mask, (coresOf mask).map fun l => (l, (n.vnf v).nPorts, (n.vnf v).nPorts))
  drawn : n.Distinct v → (∀ t q w, w ∈ holders t q → w.1 ≠ bid) → Drawn n v holders →
    Drawn n' v (held holders bid fun t q => if t = true ∨ b.receives q = true then popcnt32 mask else 0)

section Mask
variable {n n' : Nfvi} {v bid : Nat} {mask : BitVec 32} {b : Block} {holders : Bool → Nat → Set (Nat × Nat)}
  {E : Nfvi → Prop}

/-- The block as `set_coremask` leaves it for `set_coremask_impl`. -/
def remasked (nPorts : Nat) (mask : BitVec 32) (b : Block) : Block :=
  let vcores := (coresOf mask).map fun i => Vcore.init i nPorts nPorts
  {b with coremask := mask, vcores := vcores, tids := resize 0 vcores.length b.tids}

theorem remasked_form (nPorts : Nat) (mask : BitVec 32) (b : Block) :
    (remasked nPorts mask b).form = (b.cls, mask, (coresOf mask).map fun l => (l, nPorts, nPorts)) := by
  simp [remasked, Block.form, Vcore.form, Vcore.init, Function.comp_def]

theorem block?_remasked (hb : n.block? v bid = some b) (k : Nat) :
    (n.editBlock v bid (remasked (n.vnf v).nPorts mask)).block? v k =
      if k = bid then some (remasked (n.vnf v).nPorts mask b) else n.block? v k := by
  rw [block?_editBlock]
  by_cases hk : k = bid
  · subst hk
    simp [hb]
  · simp [hk]

theorem wiring_remasked (n : Nfvi) (v bid : Nat) (mask : BitVec 32) :
    (n.editBlock v bid (remasked (n.vnf v).nPorts mask)).wiring = n.wiring :=
  (allows_wiring v).block n bid _ (fun _ => rfl) fun _ _ => length_resize _ _ _

theorem nPorts_remasked (n : Nfvi) (v bid : Nat) (mask : BitVec 32) :
    ((n.editBlock v bid (remasked (n.vnf v).nPorts mask)).vnf v).nPorts = (n.vnf v).nPorts :=
  congrArg List.length (ports_of_wiring (wiring_remasked n v bid mask) v)

theorem rows_remasked (hb : n.block? v bid = some b) (mask : BitVec 32) :
    Rows (n.editBlock v bid (remasked (n.vnf v).nPorts mask)) v bid (popcnt32 mask) := by
  refine ⟨b.cls, mask, (coresOf mask).map fun l => (l, (n.vnf v).nPorts, (n.vnf v).nPorts), ?_, ?_, ?_⟩
  · rw [block?_remasked hb, if_pos rfl, Option.map_some, remasked_form]
  · rw [List.length_map, popcnt32]
  · intro r hr
    obtain ⟨l, -, rfl⟩ := List.mem_map.mp hr
    rw [nPorts_remasked]

/-- `set_coremask` draws as `set_coremask_impl` does, for the block's new vcores. -/
theorem Draws.blockSetCoremask {I : (Bool → Nat → Nat) → Nfvi → Prop}
    (h : Draws v bid (popcnt32 mask) (n.vnf v).nPorts I E) (hb : n.block? v bid = some b)
    (hpolls : ∀ portId, b.cls = .l2fwdPort portId → portId < (n.vnf v).nPorts)
    (h0 : I (fun _ _ => 0) (n.editBlock v bid (remasked (n.vnf v).nPorts mask))) :
    Meets (blockSetCoremask v bid mask) n
      (fun _ n' => I (fun t q => if t = true ∨ b.receives q = true then popcnt32 mask else 0) n') E := by
  refine Proc.meets_bind (vnfAt_meets v n) ?_
  rintro x n₁ ⟨rfl, rfl⟩
  refine Proc.meets_bind (Q := fun _ n' => n' = n₁.editBlock v bid (remasked (n₁.vnf v).nPorts mask))
    (Proc.meets_of_ret rfl rfl) ?_
  rintro _ n₂ hn₂
  have hports : (n₂.vnf v).nPorts = (n₁.vnf v).nPorts := by
    rw [hn₂, nPorts_remasked]
  have hb₂ : n₂.block? v bid = some (remasked (n₁.vnf v).nPorts mask b) := by
    rw [hn₂, block?_remasked hb, if_pos rfl]
  refine Draws.setCoremaskImpl (b := remasked (n₁.vnf v).nPorts mask b) ?_ hb₂ ?_ (hn₂ ▸ h0)
  · rw [hports]
    exact h
  · rw [hports]
    exact hpolls

theorem blockSetCoremask_meets (hb : n.block? v bid = some b)
    (hpolls : ∀ portId, b.cls = .l2fwdPort portId → portId < (n.vnf v).nPorts) :
    Meets (blockSetCoremask v bid mask) n (fun _ n' => Masked n v bid mask b holders n') E := by
  have hwiring := wiring_remasked n v bid mask
  have hports := ports_of_wiring hwiring v
  have hdraws := drawing_draws (E := E) (rows_remasked hb mask)
  rw [nPorts_remasked] at hdraws
  refine (hdraws.blockSetCoremask hb hpolls (drawing_start _ v bid)).weaken
    fun _ n' hd => ⟨hd.wiring.trans hwiring, ?_, ?_, ?_⟩
  · intro k hk
    rw [hd.form, block?_remasked hb, if_neg hk]
  · rw [hd.form, block?_remasked hb, if_pos rfl, Option.map_some, remasked_form]
  · intro hdistinct hclear hdrawn t q p hq
    rw [ports_of_wiring hd.wiring] at hq
    have hold := hdrawn t q p (hports ▸ hq)
    refine Numbers.append (hold.congr fun w hw => ?_) (hd.dealt (hdistinct.of_wiring hwiring) t q p hq)
    have hne : w.1 ≠ bid := hclear t q w hw
    rw [hd.other t q w hne, aid, block?_remasked hb, if_neg hne, aid]

/-! ### Between a reset and the deploy -/

/-- The vcores that hold an id of port `pid`: to receive, those of the blocks that do. -/
def workers (n : Nfvi) (v : Nat) (tx : Bool) (pid : Nat) : Set (Nat × Nat) :=
  {w | ∃ b, n.block? v w.1 = some b ∧ (tx = true ∨ b.receives pid = true) ∧ w.2 < b.vcores.length}

structure Filled (n : Nfvi) (v : Nat) : Prop where
  full : none ∉ (n.vnf v).ports
  distinct : n.Distinct v
  polls : ∀ bid b, n.block? v bid = some b → ∀ portId, b.cls = .l2fwdPort portId → portId < (n.vnf v).nPorts
  cores : ∀ bid b, n.block? v bid = some b → b.vcores.map Vcore.lcoreId = coresOf b.coremask
  drawn : Drawn n v (n.workers v)

theorem form_eq {k : Nat} {b : Block} (h : (n'.block? v k).map Block.form = (n.block? v k).map Block.form)
    (hb : n'.block? v k = some b) :
    ∃ c, n.block? v k = some c ∧ b.cls = c.cls ∧ b.coremask = c.coremask ∧
      b.vcores.map Vcore.form = c.vcores.map Vcore.form := by
  rw [hb] at h
  obtain ⟨c, hc, hform⟩ := Option.map_eq_some_iff.mp h.symm
  simp only [Block.form, Prod.mk.injEq] at hform
  exact ⟨c, hc, hform.1.symm, hform.2.1.symm, hform.2.2.symm⟩

theorem lcoreIds_of_form {xs ys : List Vcore} (h : xs.map Vcore.form = ys.map Vcore.form) :
    xs.map Vcore.lcoreId = ys.map Vcore.lcoreId := by
  have hfst := congrArg (List.map Prod.fst) h
  rwa [List.map_map, List.map_map] at hfst

theorem Block.receives_congr {b c : Block} (h : b.cls = c.cls) (pid : Nat) : b.receives pid = c.receives pid := by
  rw [Block.receives, Block.receives, h]

/-- What the new block is. -/
theorem Masked.block {b' : Block} (h : Masked n v bid mask b holders n') (hb' : n'.block? v bid = some b') :
    b'.cls = b.cls ∧ b'.coremask = mask ∧ b'.vcores.map Vcore.lcoreId = coresOf mask ∧
      b'.vcores.length = popcnt32 mask := by
  have hown := h.own
  rw [hb'] at hown
  simp only [Option.map_some, Option.some.injEq, Block.form, Prod.mk.injEq] at hown
  obtain ⟨hcls, hmask, hrows⟩ := hown
  have hfst := congrArg (List.map Prod.fst) hrows
  rw [List.map_map, List.map_map] at hfst
  refine ⟨hcls, hmask, hfst.trans (List.map_id' _), ?_⟩
  have hlen := congrArg List.length hrows
  rwa [List.length_map, List.length_map] at hlen

theorem length_of_form {xs ys : List Vcore} (h : xs.map Vcore.form = ys.map Vcore.form) :
    xs.length = ys.length := by
  have hlen := congrArg List.length h
  rwa [List.length_map, List.length_map] at hlen

/-- One block has other vcores: its workers are these, and the others are what they were. -/
theorem workers_of_forms {k : Nat} {b' : Block}
    (hother : ∀ j ≠ bid, (n'.block? v j).map Block.form = (n.block? v j).map Block.form)
    (hb' : n'.block? v bid = some b') (hcls : b'.cls = b.cls) (hlen : b'.vcores.length = k) (t : Bool) (q : Nat) :
    n'.workers v t q = {w | w ∈ n.workers v t q ∧ w.1 ≠ bid} ∪
      {w | w.1 = bid ∧ w.2 < if t = true ∨ b.receives q = true then k else 0} := by
  ext ⟨j, i⟩
  by_cases hj : j = bid
  · subst hj
    constructor
    · rintro ⟨c, hc, htq, hlt⟩
      rw [hb'] at hc
      cases hc
      rw [Block.receives_congr hcls] at htq
      refine .inr ⟨rfl, ?_⟩
      rw [if_pos htq, ← hlen]
      exact hlt
    · rintro (⟨-, hne⟩ | ⟨-, hlt⟩)
      · exact absurd rfl hne
      · split_ifs at hlt with htq
        · refine ⟨b', hb', ?_, hlen.symm ▸ hlt⟩
          rwa [Block.receives_congr hcls]
        · exact absurd hlt (Nat.not_lt_zero i)
  · constructor
    · rintro ⟨c, hc, htq, hlt⟩
      obtain ⟨c', hc', hcls', -, hrows⟩ := form_eq (hother j hj) hc
      rw [Block.receives_congr hcls'] at htq
      exact .inl ⟨⟨c', hc', htq, length_of_form hrows ▸ hlt⟩, hj⟩
    · rintro (⟨⟨c, hc, htq, hlt⟩, -⟩ | ⟨hjb, -⟩)
      · obtain ⟨c', hc', hcls', -, hrows⟩ := form_eq (hother j hj).symm hc
        rw [Block.receives_congr hcls'] at htq
        exact ⟨c', hc', htq, length_of_form hrows ▸ hlt⟩
      · exact absurd hjb hj

theorem Masked.workers {holders : Bool → Nat → Set (Nat × Nat)} (hm : Masked n v bid mask b holders n')
    (hclear : ∀ t q w, w ∈ n.workers v t q → w.1 ≠ bid) :
    n'.workers v =
      held (n.workers v) bid fun t q => if t = true ∨ b.receives q = true then popcnt32 mask else 0 := by
  obtain ⟨b', hb', -⟩ := Option.map_eq_some_iff.mp hm.own
  obtain ⟨hcls, -, -, hlen⟩ := hm.block hb'
  funext t q
  rw [workers_of_forms hm.other hb' hcls hlen, held]
  congr 1
  ext w
  exact and_iff_left_of_imp (hclear t q w)

/-- A block whose mask is zero is given one. -/
theorem Filled.masked (h : Filled n v) (hb : n.block? v bid = some b) (hzero : b.coremask = 0)
    (hm : Masked n v bid mask b (n.workers v) n') : Filled n' v := by
  have hports := ports_of_wiring hm.wiring v
  have hnone : b.vcores.length = 0 := by
    have hcores := congrArg List.length (h.cores bid b hb)
    rw [hzero, List.length_map] at hcores
    exact hcores
  have hclear (t : Bool) (q : Nat) (w : Nat × Nat) (hw : w ∈ n.workers v t q) : w.1 ≠ bid := by
    rintro rfl
    obtain ⟨c, hc, -, hlt⟩ := hw
    rw [hb] at hc
    cases hc
    omega
  refine ⟨hports ▸ h.full, h.distinct.of_wiring hm.wiring, fun k c hc => ?_, fun k c hc => ?_, ?_⟩
  · rw [Vnf.nPorts, hports]
    by_cases hk : k = bid
    · subst hk
      rw [(hm.block hc).1]
      exact h.polls k b hb
    · obtain ⟨c', hc', hcls, -⟩ := form_eq (hm.other k hk) hc
      rw [hcls]
      exact h.polls k c' hc'
  · by_cases hk : k = bid
    · subst hk
      rw [(hm.block hc).2.1, (hm.block hc).2.2.1]
    · obtain ⟨c', hc', -, hmask, hrows⟩ := form_eq (hm.other k hk) hc
      rw [hmask, ← h.cores k c' hc']
      exact lcoreIds_of_form hrows
  · rw [hm.workers hclear]
    exact hm.drawn h.distinct hclear h.drawn

end Mask

end Nfvi

end Susanow
