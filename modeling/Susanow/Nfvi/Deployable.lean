import Susanow.Nfvi.Deploying
import Susanow.Nfvi.Holding
import Susanow.Nfvi.Masking

/-! What `deployable` says of a deploy.

It looks at the slots and at the masks. A deploy looks at the slots as well, asks every port
whether it is deployable, deals the port's queues out to its accessors, and needs a vcore in
every block. A block has the vcores of its mask once a mask was set (`Cored`), and with free
lcores nothing else can go wrong (`Ready`). -/
namespace Susanow

/-- `ssn_vnf::deployable` -/
def Vnf.deployable (x : Vnf) : Bool := x.ports.all Option.isSome && x.blocks.all fun b => b.coremask != 0

/-- A step of a thread, and not of a client. -/
def Label.Internal : Label → Prop
  | .ctl => True
  | .wrk _ => True
  | _ => False

namespace Nfvi
open Proc (Within Preserves Meets within_bind within_pure)

/-! ### Masks and vcores -/

/-- Every block has the vcores of its mask, or none. -/
def Cored (n : Nfvi) : Prop :=
  ∀ v bid mask lcores, n.coresAt v bid = some (mask, lcores) → lcores = [] ∨ lcores = coresOf mask

theorem Cored.of_coresAt {n n' : Nfvi} (h : n.Cored) (heq : n'.coresAt = n.coresAt) : n'.Cored := by
  unfold Cored
  rw [heq]
  exact h

theorem cored_of_keeps {α : Type} {p : Proc Nfvi α} (h : Proc.Keeps coresAt p) : Preserves Cored p :=
  fun n => ⟨fun a n' hret hn => hn.of_coresAt ((h n).1 a n' hret), fun w n' hw hn => hn.of_coresAt ((h n).2 w n' hw)⟩

theorem cored_remasked {n : Nfvi} (h : n.Cored) (v bid nPorts : Nat) (mask : BitVec 32) :
    (n.editBlock v bid (remasked nPorts mask)).Cored := by
  intro w k m lcores heq
  rw [coresAt, block?_editBlock] at heq
  split_ifs at heq with hown
  · obtain ⟨rfl, rfl⟩ := hown
    rw [Option.map_map] at heq
    obtain ⟨b, -, heq⟩ := Option.map_eq_some_iff.mp heq
    cases heq
    right
    simp [remasked, Vcore.init, Function.comp_def]
  · exact h w k m lcores heq

theorem cored_blockSetCoremask (v bid : Nat) (mask : BitVec 32) : Preserves Cored (blockSetCoremask v bid mask) :=
  within_bind (within_vnfAt v) fun x =>
    within_bind (Proc.within_modify fun _ hn => cored_remasked hn v bid x.nPorts mask) fun _ =>
      cored_of_keeps (keeps_cores_setCoremaskImpl v bid mask)

theorem cored_setCoremask (v bid : Nat) (mask : BitVec 32) : Preserves Cored (setCoremask v bid mask) :=
  within_bind (within_vnfAt v) fun _ => Proc.within_ite (within_pure _) <|
    within_bind (within_blockAt v bid) fun _ =>
      within_bind (cored_blockSetCoremask v bid mask) fun _ => within_pure _

theorem cored_reset (v : Nat) : Preserves Cored (reset v) := by
  have hblock (k : Nat) : Preserves Cored (blockReset v k) := by
    refine within_bind (cored_blockSetCoremask v k 1) fun _ => within_bind (within_blockAt v k) fun b => ?_
    split
    · exact Proc.within_crash _
    · exact cored_of_keeps (Proc.within_modify fun n => coresAt_editBlock fun _ _ => ⟨rfl, rfl⟩)
  refine within_bind (within_vnfAt v) fun x => within_bind (Proc.within_forRange fun k => ?_) fun _ => ?_
  · exact within_bind (hblock k) fun _ => within_bind (cored_setCoremask v k 0) fun _ => within_pure _
  · refine Proc.within_ite (within_pure _) (within_bind (Proc.within_forRange fun i => ?_) fun _ => within_pure _)
    exact within_bind (within_slotAt v i) fun p => within_bind (within_portAt p) fun _ =>
      cored_of_keeps (Proc.within_modify fun _ => rfl)

/-- Blocks are what they were, or new. -/
theorem Cored.of_kept {slotsOk blocksOk : Nat → Prop} {tablesOk : Prop} {n n' : Nfvi} (h : n.Cored)
    (hk : Kept slotsOk blocksOk tablesOk n n') (hno : ∀ v, ¬blocksOk v) : n'.Cored := by
  intro v bid mask lcores heq
  obtain ⟨b, hb, hcores⟩ := Option.map_eq_some_iff.mp heq
  rcases hk.blocks v with hsame | hok | ⟨-, hnew⟩
  · apply h v bid
    rw [coresAt, block?, ← hsame]
    exact heq
  · exact absurd hok (hno v)
  · cases hcores
    left
    rw [(hnew b (List.mem_of_getElem? hb)).vcores]
    rfl

theorem cored_handle (th : Native Task) (r : Request) : Preserves Cored (handle th r) := by
  intro n
  by_cases hr : writesCounters r
  · exact writesCounters_within th hr fun v _ _ => ⟨cored_reset v, cored_setCoremask v⟩
  · have hgate (v : Nat) : ¬n.Open (n.blockGate r) v := by
      rintro ⟨hgate, -⟩
      cases r with
      | coremaskPut | resetPut => exact hr trivial
      | _ => cases hgate
    have hkept := kept_handle th r n
    exact ⟨fun nx n' hret hn => hn.of_kept (hkept.1 nx n' hret) hgate,
      fun w n' hw hn => hn.of_kept (hkept.2 w n' hw) hgate⟩

theorem cored_invoke (c : Call) : Preserves Cored (Sys.invoke c) := by
  have hkept (n : Nfvi) (hno : ∀ v, ¬configures c v) : Meets (Sys.invoke c) n (fun _ n' => n.Cored → n'.Cored)
      fun n' => n.Cored → n'.Cored :=
    ⟨fun nx n' hret hn => hn.of_kept ((kept_invoke c n).1 nx n' hret) hno,
      fun w n' hw hn => hn.of_kept ((kept_invoke c n).2 w n' hw) hno⟩
  cases c with
  | reset v => exact within_bind (cored_reset v) fun _ => within_pure _
  | setCoremask v bid mask => exact within_bind (cored_setCoremask v bid mask) fun _ => within_pure _
  | deploy v | undeploy v => exact fun n => hkept n fun _ => id

/-! ### A deploy up to its blocks -/

/-- What a deploy needs of the ports and blocks of `v`. -/
structure Supplies (n : Nfvi) (v : Nat) : Prop where
  plugged : ∀ slot ∈ (n.vnf v).ports, n.Plugged slot
  fits : ∀ slot ∈ (n.vnf v).ports, ∀ p ∈ slot, n.AccFits p
  vcores : ∀ b ∈ (n.vnf v).blocks, b.vcores ≠ []

theorem supplies_iff {n : Nfvi} {v : Nat} :
    ((∀ slot ∈ (n.vnf v).ports, n.Plugged slot) ∧ (∀ slot ∈ (n.vnf v).ports, ∀ p ∈ slot, n.AccFits p) ∧
      ∀ b ∈ (n.vnf v).blocks, b.vcores ≠ []) ↔ n.Supplies v :=
  ⟨fun h => ⟨h.1, h.2.1, h.2.2⟩, fun h => ⟨h.plugged, h.fits, h.vcores⟩⟩

instance (n : Nfvi) (v : Nat) : Decidable (n.Supplies v) := decidable_of_iff _ supplies_iff

theorem keeps_vnf_deploy (v : Nat) : Proc.Keeps (fun n => (n.vnf, n.vnfs)) (deploy v) := by
  have hallows : AllowsTables v fun n n' => (n'.vnf, n'.vnfs) = (n.vnf, n.vnfs) :=
    ⟨fun _ _ _ _ _ _ _ _ _ => rfl, fun _ _ _ _ r _ _ _ => by cases r <;> rfl,
      fun _ _ _ _ r _ _ _ => by cases r <;> rfl⟩
  exact within_bind hallows.deployPorts fun _ => Proc.within_ite (within_pure _) (within_pure _)

/-- When a deploy comes to its blocks. -/
theorem deploy_launches_iff {n : Nfvi} {v : Nat} (hv : v ∈ n.vnfs) (hpaired : n.wiring.Paired)
    (hlive : ∀ p, some p ∈ (n.vnf v).ports → p ∈ n.ports) :
    (∃ n', deploy v n = .ret (.launch v) n') ↔
      (∀ slot ∈ (n.vnf v).ports, n.Plugged slot) ∧ ∀ slot ∈ (n.vnf v).ports, ∀ p ∈ slot, n.AccFits p := by
  have hports := portsDeployable_run hpaired hlive
  by_cases hfull : ∀ slot ∈ (n.vnf v).ports, n.Plugged slot
  · rw [decide_eq_true hfull] at hports
    have hconf := configreAcc_returnsIff hv hlive hfull
    constructor
    · rintro ⟨n', hrun⟩
      refine ⟨hfull, hconf.iff.mp ?_⟩
      obtain ⟨ok, n₁, hok, -⟩ := Proc.bind_eq_ret hrun
      rw [deployPorts, Proc.bind_ret (vnfAt_of_mem hv), Proc.bind_ret hports, if_pos rfl] at hok
      obtain ⟨a, n₂, hret, -⟩ := Proc.bind_eq_ret hok
      exact ⟨a, n₂, hret⟩
    · rintro ⟨-, hfits⟩
      obtain ⟨a, n', hret, -⟩ := hconf.returns hfits
      refine ⟨n', ?_⟩
      have hok : deployPorts v n = .ret true n' := by
        rw [deployPorts, Proc.bind_ret (vnfAt_of_mem hv), Proc.bind_ret hports, if_pos rfl, Proc.bind_ret hret]
        rfl
      rw [deploy, Proc.bind_ret hok]
      rfl
  · rw [decide_eq_false hfull] at hports
    refine ⟨fun ⟨n', hrun⟩ => ?_, fun h => absurd h.1 hfull⟩
    obtain ⟨ok, n₁, hok, hnx⟩ := Proc.bind_eq_ret hrun
    rw [deployPorts, Proc.bind_ret (vnfAt_of_mem hv), Proc.bind_ret hports] at hok
    cases hok
    cases hnx

end Nfvi

namespace Sys
open Nfvi (coresOf)

/-- The lcores of each block. -/
def lcores (s : Sys) (v : Nat) : List (List Nat) :=
  (s.nfvi.vnf v).blocks.map fun b => b.vcores.map Vcore.lcoreId

/-- The lcores that a deploy of `v` has still to launch on, when it is at vcore `i` of block `bid`. -/
def rest (s : Sys) (v bid i : Nat) : List Nat := (((s.lcores v).drop bid).modifyHead (List.drop i)).flatten

/-- A launch on the lcore is not refused. -/
def Vacant (s : Sys) (l : Nat) : Prop := l ≠ 0 ∧ l < s.native.nLcore ∧ s.native.lcore l = .wait

/-- The lcores that the masks of `v` name, block by block. -/
def named (s : Sys) (v : Nat) : List Nat := (s.nfvi.vnf v).blocks.flatMap fun b => coresOf b.coremask

/-- They are vacant, and no two blocks name the same. -/
def CoresFree (s : Sys) (v : Nat) : Prop := (∀ l ∈ s.named v, s.Vacant l) ∧ (s.named v).Nodup

instance (s : Sys) (l : Nat) : Decidable (s.Vacant l) := inferInstanceAs (Decidable (_ ∧ _ ∧ _))

instance (s : Sys) (v : Nat) : Decidable (s.CoresFree v) := inferInstanceAs (Decidable (_ ∧ _))

/-- `deploy` returns 0: its first step can be taken, and whatever the threads do from there, it
can go on to that return. -/
def Succeeds (s : Sys) (v : Nat) : Prop :=
  ∃ t, s.step (.call (.deploy v)) = some t ∧
    ∀ ls u, (∀ l ∈ ls, l.Internal) → exec step t ls = some u →
      ∃ ms w, (∀ m ∈ ms, m.Internal) ∧ exec step u ms = some w ∧ w.ctrl = .idle (some (.deployed v 0))

section Launching
variable {s t : Sys} {v : Nat}

theorem lcores_editBlock {f : Block → Block} (hf : ∀ b, (f b).vcores = b.vcores) (n : Nfvi) (w bid : Nat) :
    ((n.editBlock w bid f).vnf v).blocks.map (fun b => b.vcores.map Vcore.lcoreId) =
      (n.vnf v).blocks.map fun b => b.vcores.map Vcore.lcoreId := by
  apply List.ext_getElem?
  intro k
  simp only [List.getElem?_map]
  show ((n.editBlock w bid f).block? v k).map _ = (n.block? v k).map _
  rw [Nfvi.block?_editBlock]
  split
  · cases n.block? v k <;> simp [hf]
  · rfl

theorem lcores_ctl (hs : Ctl s t) : t.lcores v = s.lcores v :=
  hs.nfvi (P := fun n => (n.vnf v).blocks.map (fun b => b.vcores.map Vcore.lcoreId) = s.lcores v) rfl
    (fun w bid i l => lcores_editBlock (f := setTid i l) (fun _ => rfl) s.nfvi w bid)
    fun w bid running => lcores_editBlock (f := setRunning running) (fun _ => rfl) s.nfvi w bid

theorem lcores_wrk {l : Nat} (hs : Wrk s l t) : t.lcores v = s.lcores v :=
  hs.nfvi (P := fun n => (n.vnf v).blocks.map (fun b => b.vcores.map Vcore.lcoreId) = s.lcores v) rfl
    fun w bid running => lcores_editBlock (f := setRunning running) (fun _ => rfl) s.nfvi w bid

theorem drop_lcores {bid : Nat} {b : Block} (hb : s.block? v bid = some b) :
    (s.lcores v).drop bid = b.vcores.map Vcore.lcoreId :: (s.lcores v).drop (bid + 1) := by
  obtain ⟨hlt, rfl⟩ := List.getElem?_eq_some_iff.mp hb
  rw [List.drop_eq_getElem_cons (by simpa [lcores] using hlt)]
  simp [lcores]

theorem mem_rest {bid i : Nat} {b : Block} {vc : Vcore} (hb : s.block? v bid = some b) (hi : b.vcores[i]? = some vc) :
    vc.lcoreId ∈ s.rest v bid i := by
  rw [rest, drop_lcores hb, List.modifyHead_cons, List.flatten_cons]
  refine List.mem_append_left _ (List.mem_of_getElem? (i := 0) ?_)
  rw [List.getElem?_drop, List.getElem?_map, Nat.add_zero, hi]
  rfl

/-- A deploy of `v` is on its way to return 0. -/
structure Ready (s : Sys) (v : Nat) : Prop where
  live : v ∈ s.nfvi.vnfs
  cores : [] ∉ s.lcores v
  ctrl : s.ctrl = .idle (some (.deployed v 0)) ∨ ∃ bid i, s.ctrl = .launching v bid i ∧
    (s.rest v bid i).Nodup ∧ ∀ l ∈ s.rest v bid i, s.Vacant l

theorem vnfs_ctl (hs : Ctl s t) : t.nfvi.vnfs = s.nfvi.vnfs := congrArg Wiring.vnfs (ctl_wiring hs)

theorem vnfs_wrk {l : Nat} (hs : Wrk s l t) : t.nfvi.vnfs = s.nfvi.vnfs := congrArg Wiring.vnfs (wrk_wiring hs)

/-- How far a deploy is from its return. -/
def ahead (s : Sys) (v : Nat) : Nat :=
  match s.ctrl with
  | .launching _ bid i => (s.rest v bid i).length + ((s.lcores v).length - bid) + 1
  | _ => 0

theorem Ready.ctl (h : s.Ready v) (hs : Ctl s t) : t.Ready v ∧ t.ahead v < s.ahead v := by
  have hlcores := lcores_ctl (v := v) hs
  obtain ⟨hlive, hcores, hctrl⟩ := h
  rcases hctrl with hc | ⟨bid, i, hc, hnodup, hvacant⟩
  · cases hs <;> simp_all
  have hvcores {b : Block} (hb : s.block? v bid = some b) : b.vcores ≠ [] := by
    intro hnil
    apply hcores
    rw [lcores, List.mem_map]
    exact ⟨b, List.mem_of_getElem? hb, by rw [hnil]; rfl⟩
  have hready (hctrl : t.ctrl = .idle (some (.deployed v 0)) ∨ ∃ k j, t.ctrl = .launching v k j ∧
      (t.rest v k j).Nodup ∧ ∀ l ∈ t.rest v k j, t.Vacant l) : t.Ready v :=
    ⟨(vnfs_ctl hs).symm ▸ hlive, hlcores.symm ▸ hcores, hctrl⟩
  have hahead : s.ahead v = (s.rest v bid i).length + ((s.lcores v).length - bid) + 1 := by
    simp only [ahead, hc]
  cases hs with
  | deployed hc' =>
    cases hc.symm.trans hc'
    refine ⟨hready (.inl rfl), ?_⟩
    rw [hahead]
    exact Nat.succ_pos _
  | noVcore hc' hb hnil =>
    cases hc.symm.trans hc'
    exact absurd hnil (hvcores hb)
  | @nextBlock w k j b hc' hb hne hle =>
    cases hc.symm.trans hc'
    have hrest : s.rest v bid i = s.rest v (bid + 1) 0 := by
      have hnil : (b.vcores.map Vcore.lcoreId).drop i = [] := List.drop_of_length_le (by simpa using hle)
      rw [rest, drop_lcores hb, List.modifyHead_cons, List.flatten_cons, hnil, List.nil_append, rest]
      cases (s.lcores v).drop (bid + 1) <;> rfl
    have hrest' : ((s.begun v bid i).goto (.launching v (bid + 1) 0)).rest v (bid + 1) 0 = s.rest v bid i := by
      rw [hrest, rest, rest, hlcores]
    have hlt : bid < (s.lcores v).length := by
      rw [lcores, List.length_map]
      exact (List.getElem?_eq_some_iff.mp hb).1
    refine ⟨hready (.inr ⟨bid + 1, 0, rfl, ?_, ?_⟩), ?_⟩
    · rwa [hrest']
    · rw [hrest']
      intro l hl
      simpa [Vacant] using hvacant l hl
    · rw [hahead]
      simp only [ahead, goto_ctrl, hlcores, hrest']
      omega
  | @launch w k j b vc hc' hb hi h0 hwait =>
    cases hc.symm.trans hc'
    have hcons : s.rest v bid i = vc.lcoreId :: s.rest v bid (i + 1) := by
      have hget : (b.vcores.map Vcore.lcoreId)[i]? = some vc.lcoreId := by rw [List.getElem?_map, hi]; rfl
      obtain ⟨hlt, heq⟩ := List.getElem?_eq_some_iff.mp hget
      simp only [rest, drop_lcores hb, List.modifyHead_cons, List.flatten_cons]
      rw [List.drop_eq_getElem_cons hlt, heq]
      rfl
    have hrest : (s.launched v bid i vc.lcoreId).rest v bid (i + 1) = s.rest v bid (i + 1) := by
      rw [rest, rest, hlcores]
    rw [hcons, List.nodup_cons] at hnodup
    refine ⟨hready (.inr ⟨bid, i + 1, rfl, ?_, ?_⟩), ?_⟩
    · rw [hrest]
      exact hnodup.2
    · rw [hrest]
      intro l hl
      obtain ⟨hl0, hlt, hlwait⟩ := hvacant l (hcons ▸ List.mem_cons_of_mem _ hl)
      have hne : l ≠ vc.lcoreId := by
        rintro rfl
        exact hnodup.1 hl
      refine ⟨hl0, hlt, ?_⟩
      rw [launched_lcore, Function.update_of_ne hne]
      exact hlwait
    · rw [hahead, hcons]
      simp only [ahead, launched_ctrl, hlcores, hrest, List.length_cons]
      omega
  | @refused w k j b vc th hc' hb hi hrefuses =>
    cases hc.symm.trans hc'
    obtain ⟨h0, -, hwait⟩ := hvacant _ (mem_rest hb hi)
    rcases hrefuses with h | ⟨-, h⟩
    · exact absurd h h0
    · exact absurd hwait h
  | rolledBack hc' | undeployed hc' | skip hc' | store hc' | noTid hc' | okashii hc' | join hc' | unknown hc'
  | blockDone hc' => cases hc.symm.trans hc'

theorem Ready.wrk {l : Nat} (h : s.Ready v) (hs : Wrk s l t) : t.Ready v := by
  have hlcores := lcores_wrk (v := v) hs
  have hvacant (j : Nat) (hj : s.Vacant j) : t.Vacant j := by
    obtain ⟨h0, hlt, hwait⟩ := hj
    have hne {x : Task} {pc : Pc Task} (hl : s.native.lcore l = .running x pc) : j ≠ l := by
      rintro rfl
      rw [hl] at hwait
      cases hwait
    cases hs with
    | fetch hl | timer hl | enter hl | leave hl =>
      refine ⟨h0, hlt, ?_⟩
      rw [setLcore_lcore, Function.update_of_ne (hne hl)]
      exact hwait
    | pass hl => exact ⟨h0, hlt, hwait⟩
  have hctrl : t.ctrl = s.ctrl := by cases hs <;> rfl
  refine ⟨(vnfs_wrk hs).symm ▸ h.live, hlcores.symm ▸ h.cores, ?_⟩
  rw [hctrl]
  refine h.ctrl.imp_right fun ⟨bid, i, hc, hnodup, hall⟩ => ⟨bid, i, hc, ?_⟩
  rw [rest, hlcores]
  exact ⟨hnodup, fun j hj => hvacant j (hall j hj)⟩

/-- The server's thread alone comes to the return. -/
theorem Ready.returns (h : s.Ready v) :
    ∃ ms w, (∀ m ∈ ms, m.Internal) ∧ exec step s ms = some w ∧ w.ctrl = .idle (some (.deployed v 0)) := by
  induction hk : s.ahead v using Nat.strong_induction_on generalizing s with
  | h k ih =>
    rcases h.ctrl with hc | ⟨bid, i, hc, -, hvacant⟩
    · exact ⟨[], s, nofun, rfl, hc⟩
    · have hsome : s.ctl.isSome := by
        simp only [Sys.ctl, hc, if_pos h.live]
        exact (launchStep_isSome_iff s v bid i).mpr fun b hb vc hi => .inr (hvacant _ (mem_rest hb hi)).2.1
      obtain ⟨t, ht⟩ := Option.isSome_iff_exists.mp hsome
      obtain ⟨hready, hlt⟩ := h.ctl (ctl_some ht)
      obtain ⟨ms, w, hms, hw, hdone⟩ := ih _ (hk ▸ hlt) hready rfl
      refine ⟨.ctl :: ms, w, List.forall_mem_cons.mpr ⟨trivial, hms⟩, ?_, hdone⟩
      rw [exec, step, ht]
      exact hw

/-- As far as a deploy of `v` has come, every block has vcores. -/
structure Passed (s : Sys) (v : Nat) : Prop where
  before : ∀ bid i, s.ctrl = .launching v bid i → ∀ k < bid, (s.lcores v)[k]? ≠ some []
  after : s.ctrl = .idle (some (.deployed v 0)) → [] ∉ s.lcores v

theorem Passed.ctl (h : s.Passed v) (hs : Ctl s t) : t.Passed v := by
  have hlcores := lcores_ctl (v := v) hs
  constructor
  · intro bid i hc k hk
    rw [hlcores]
    cases hs with
    | @nextBlock w bid' i' b hc' hb hne =>
      cases hc
      rcases Nat.lt_succ_iff_lt_or_eq.mp hk with hlt | rfl
      · exact h.before bid' i' hc' k hlt
      · have hb' : (s.nfvi.vnf v).blocks[k]? = some b := hb
        simpa [lcores, hb'] using hne
    | launch hc' =>
      cases hc
      exact h.before _ _ hc' k hk
    | _ => cases hc
  · intro hc hnil
    rw [hlcores] at hnil
    cases hs with
    | @deployed w bid i hc' hb =>
      cases hc
      obtain ⟨k, hk⟩ := List.mem_iff_getElem?.mp hnil
      refine h.before bid i hc' k ?_ hk
      by_contra hle
      have hlen : (s.lcores v).length ≤ bid := by
        rw [lcores, List.length_map]
        exact List.getElem?_eq_none_iff.mp hb
      rw [List.getElem?_eq_none_iff.mpr (hlen.trans (Nat.not_lt.mp hle))] at hk
      cases hk
    | _ => cases hc

theorem Passed.wrk {l : Nat} (h : s.Passed v) (hs : Wrk s l t) : t.Passed v := by
  have hctrl : t.ctrl = s.ctrl := by cases hs <;> rfl
  constructor
  · rw [hctrl, lcores_wrk hs]
    exact h.before
  · rw [hctrl, lcores_wrk hs]
    exact h.after

/-- What the threads keep, whoever's turn it is. -/
theorem internal_induct {I : Sys → Prop} (hctl : ∀ s t, I s → Ctl s t → I t) (hwrk : ∀ s l t, I s → Wrk s l t → I t)
    {ls : List Label} (hls : ∀ l ∈ ls, l.Internal) (h : I s) (hexec : exec step s ls = some t) : I t := by
  induction ls generalizing s with
  | nil =>
    cases hexec
    exact h
  | cons l ls ih =>
    obtain ⟨u, hu, hrest⟩ := Option.bind_eq_some_iff.mp hexec
    refine ih (fun m hm => hls m (List.mem_cons_of_mem l hm)) ?_ hrest
    cases l with
    | ctl => exact hctl s u h (ctl_some hu)
    | wrk j => exact hwrk s j u h (wrk_some hu)
    | request r => exact (hls _ List.mem_cons_self).elim
    | call c => exact (hls _ List.mem_cons_self).elim

theorem idle_internal {ls : List Label} (hls : ∀ l ∈ ls, l.Internal) {last : Option Done} (h : s.ctrl = .idle last)
    (hexec : exec step s ls = some t) : t.ctrl = .idle last := by
  refine internal_induct (I := fun u => u.ctrl = .idle last) (fun u t hu hs => ?_) (fun u l t hu hs => ?_) hls h hexec
  · cases hs <;> simp_all
  · cases hs <;> exact hu

end Launching

section Deploy
variable {s : Sys} {v : Nat}

theorem lcores_of_vnf {n : Nfvi} (h : n.vnf = s.nfvi.vnf) (c : Ctrl) :
    ({s with nfvi := n, ctrl := c} : Sys).lcores v = s.lcores v := by
  simp only [lcores, h]

theorem nil_mem_lcores : [] ∈ s.lcores v ↔ ∃ b ∈ (s.nfvi.vnf v).blocks, b.vcores = [] := by
  simp [lcores]

/-- With free lcores a deploy succeeds just when its ports and blocks are as it needs them. -/
theorem succeeds_iff (hpaired : s.nfvi.wiring.Paired) (hlive : ∀ p, some p ∈ (s.nfvi.vnf v).ports → p ∈ s.nfvi.ports)
    (hcored : s.nfvi.Cored) {last : Option Done} (hidle : s.ctrl = .idle last) (hv : v ∈ s.nfvi.vnfs)
    (hfree : s.CoresFree v) : s.Succeeds v ↔ s.nfvi.Supplies v := by
  have hiff := Nfvi.deploy_launches_iff hv hpaired hlive
  have hcores {b : Block} (hb : b ∈ (s.nfvi.vnf v).blocks) (hne : b.vcores ≠ []) :
      b.vcores.map Vcore.lcoreId = coresOf b.coremask := by
    obtain ⟨bid, hbid⟩ := List.getElem?_of_mem hb
    have hat : s.nfvi.coresAt v bid = some (b.coremask, b.vcores.map Vcore.lcoreId) := by
      rw [Nfvi.coresAt, Nfvi.block?, hbid]
      rfl
    refine (hcored v bid _ _ hat).resolve_left fun hnil => hne (List.map_eq_nil_iff.mp hnil)
  constructor
  · rintro ⟨t, ht, hgo⟩
    obtain ⟨ms, w, hms, hw, hdone⟩ := hgo [] t (fun _ h => absurd h List.not_mem_nil) rfl
    have hidles {d : Option Done} (hd : t.ctrl = .idle d) : d = some (.deployed v 0) := by
      rw [idle_internal hms hd hw] at hdone
      cases hdone
      rfl
    obtain ⟨-, ⟨nx, n, hp, rfl⟩ | ⟨what, n, hp, rfl⟩⟩ := serve_some ht
    · have hreturns := Nfvi.deploy_returnsIff hv hpaired hlive
      have hnx := (hreturns.returns (hreturns.iff.mp ⟨nx, n, hp⟩)).of_ret hp
      rcases hnx with rfl | rfl
      · obtain ⟨hplugged, hfits⟩ := hiff.mp ⟨n, hp⟩
        have hsame : n.vnf = s.nfvi.vnf := congrArg Prod.fst ((Nfvi.keeps_vnf_deploy v _).1 _ n hp)
        refine ⟨hplugged, hfits, fun b hb hnil => ?_⟩
        have hlcores := lcores_of_vnf (s := s) (v := v) hsame (.launching v 0 0)
        have hend : w.Passed v ∧ w.lcores v = s.lcores v := by
          refine internal_induct (I := fun u => u.Passed v ∧ u.lcores v = s.lcores v)
            (fun _ _ h hs => ⟨h.1.ctl hs, (lcores_ctl hs).trans h.2⟩)
            (fun _ _ _ h hs => ⟨h.1.wrk hs, (lcores_wrk hs).trans h.2⟩) hms ⟨⟨?_, ?_⟩, hlcores⟩ hw
          · intro bid i hc k hk
            cases hc
            exact absurd hk (Nat.not_lt_zero k)
          · intro hc
            cases hc
        refine hend.1.after hdone ?_
        rw [hend.2, nil_mem_lcores]
        exact ⟨b, hb, hnil⟩
      · cases hidles rfl
    · cases hidles rfl
  · rintro ⟨hplugged, hfits, hne⟩
    obtain ⟨n, hrun⟩ := hiff.mpr ⟨hplugged, hfits⟩
    have hkept := (Nfvi.keeps_vnf_deploy v _).1 _ n hrun
    have hvnf : n.vnf = s.nfvi.vnf := congrArg Prod.fst hkept
    have hvnfs : n.vnfs = s.nfvi.vnfs := congrArg Prod.snd hkept
    have hlcores := lcores_of_vnf (s := s) (v := v) hvnf (.launching v 0 0)
    refine ⟨{s with nfvi := n, ctrl := .launching v 0 0}, ?_, fun ls u hls hu => ?_⟩
    · simp only [step, serve, hidle, invoke, hrun, ctrlOf]
    have hrest : ({s with nfvi := n, ctrl := .launching v 0 0} : Sys).rest v 0 0 = s.named v := by
      have hmasks : s.lcores v = (s.nfvi.vnf v).blocks.map fun b => coresOf b.coremask :=
        List.map_congr_left fun b hb => hcores hb (hne b hb)
      rw [rest, hlcores, hmasks, List.drop_zero, named, List.flatMap_def]
      cases (s.nfvi.vnf v).blocks.map fun b => coresOf b.coremask <;> rfl
    have hready : ({s with nfvi := n, ctrl := .launching v 0 0} : Sys).Ready v := by
      refine ⟨hvnfs.symm ▸ hv, ?_, .inr ⟨0, 0, rfl, ?_, ?_⟩⟩
      · rw [hlcores, nil_mem_lcores]
        rintro ⟨b, hb, hnil⟩
        exact hne b hb hnil
      · rw [hrest]
        exact hfree.2
      · rw [hrest]
        exact hfree.1
    exact (internal_induct (I := fun u : Sys => u.Ready v) (fun _ _ h hs => (h.ctl hs).1) (fun _ _ _ h hs => h.wrk hs)
      hls hready hu).returns

/-- What a deploy needs is more than `deployable` asks for. -/
theorem deployable_of_supplies (hcored : s.nfvi.Cored) (h : s.nfvi.Supplies v) :
    (s.nfvi.vnf v).deployable = true := by
  simp only [Vnf.deployable, Bool.and_eq_true, List.all_eq_true]
  refine ⟨fun slot hslot => ?_, fun b hb => ?_⟩
  · obtain ⟨p, hp, -⟩ := h.plugged slot hslot
    exact Option.isSome_of_mem hp
  · obtain ⟨bid, hbid⟩ := List.getElem?_of_mem hb
    have hat : s.nfvi.coresAt v bid = some (b.coremask, b.vcores.map Vcore.lcoreId) := by
      rw [Nfvi.coresAt, Nfvi.block?, hbid]
      rfl
    have hne : b.vcores.map Vcore.lcoreId ≠ [] := mt List.map_eq_nil_iff.mp (h.vcores b hb)
    have hcores := (hcored v bid _ _ hat).resolve_left hne
    simp only [bne_iff_ne, ne_eq]
    intro hzero
    apply hne
    rw [hcores, hzero]
    rfl

end Deploy

theorem cored_of_run {nSocket nLcore : Nat} {catalog : List (String × VnfClass)} {ls : List Label} {s : Sys}
    (h : Runs step Always (.init nSocket nLcore catalog) ls s) : s.nfvi.Cored := by
  refine h.invariant (I := fun s => s.nfvi.Cored) (fun v bid mask lcores heq => ?_) fun s l t hs _ hstep => ?_
  · cases heq
  · have hedit {v bid : Nat} {f : Block → Block}
        (hf : ∀ b, (f b).coremask = b.coremask ∧ (f b).vcores = b.vcores) : (s.nfvi.editBlock v bid f).Cored :=
      hs.of_coresAt (Nfvi.coresAt_editBlock fun b _ => ⟨(hf b).1, by rw [(hf b).2]⟩)
    have hserve {p : Proc Nfvi Next} (hp : Proc.Preserves Nfvi.Cored p) (ht : s.serve p = some t) : t.nfvi.Cored := by
      obtain ⟨-, ⟨nx, n, hrun, rfl⟩ | ⟨w, n, hrun, rfl⟩⟩ := serve_some ht
      · exact (hp _).1 nx n hrun hs
      · exact (hp _).2 w n hrun hs
    cases l with
    | request r => exact hserve (Nfvi.cored_handle s.native r) hstep
    | call c => exact hserve (Nfvi.cored_invoke c) hstep
    | ctl =>
      exact (ctl_some hstep).nfvi hs (fun v bid i l => hedit (f := setTid i l) fun _ => ⟨rfl, rfl⟩)
        fun v bid running => hedit (f := setRunning running) fun _ => ⟨rfl, rfl⟩
    | wrk j => exact (wrk_some hstep).nfvi hs fun v bid running => hedit (f := setRunning running) fun _ => ⟨rfl, rfl⟩

theorem succeeds_iff_of_run {nSocket nLcore : Nat} {catalog : List (String × VnfClass)} {ls : List Label} {s : Sys}
    (h : Runs step Always (.init nSocket nLcore catalog) ls s) {last : Option Done} (hidle : s.ctrl = .idle last)
    {v : Nat} (hv : v ∈ s.nfvi.vnfs) (hfree : s.CoresFree v) : s.Succeeds v ↔ s.nfvi.Supplies v := by
  refine succeeds_iff (paired_of_run h) (fun p hp => ?_) (cored_of_run h) hidle hv hfree
  obtain ⟨i, hi⟩ := List.getElem?_of_mem hp
  exact (attached_of_run h).slot_live v hv i p hi

/-- **`deployable` speaks for a deploy** on free lcores just when what it does not look at is in
order: no port that is virtual and not patched, accessors that divide the queues of their port, and
vcores in every block. -/
theorem deployable_iff_of_run {nSocket nLcore : Nat} {catalog : List (String × VnfClass)} {ls : List Label} {s : Sys}
    (h : Runs step Always (.init nSocket nLcore catalog) ls s) {last : Option Done} (hidle : s.ctrl = .idle last)
    {v : Nat} (hv : v ∈ s.nfvi.vnfs) (hfree : s.CoresFree v) :
    ((s.nfvi.vnf v).deployable = true ↔ s.Succeeds v) ↔
      ((s.nfvi.vnf v).deployable = true → s.nfvi.Supplies v) := by
  rw [succeeds_iff_of_run h hidle hv hfree]
  exact ⟨Iff.mp, fun hsupplies => ⟨hsupplies, deployable_of_supplies (cored_of_run h)⟩⟩

theorem deployable_iff_of_maskedRun :
    ∃ s, exec step (.init 1 4 mainCatalog) (maskedRun 0x4) = some s ∧
      (((s.nfvi.vnf 0).deployable = true ↔ s.Succeeds 0) ↔
        ((s.nfvi.vnf 0).deployable = true → s.nfvi.Supplies 0)) := by
  obtain ⟨s, hs, hf⟩ := Option.map_eq_some_iff.mp
    (show (exec step (.init 1 4 mainCatalog) (maskedRun 0x4)).map (fun s =>
        (s.ctrl, s.nfvi.vnfs, decide (s.CoresFree 0))) =
      some (.idle (some (.reply ⟨true, "v: coremask bid=0 mask=0x4"⟩)), [0], true) by decide +kernel)
  simp only [Prod.mk.injEq, decide_eq_true_eq] at hf
  obtain ⟨hidle, hvnfs, hfree⟩ := hf
  exact ⟨s, hs, deployable_iff_of_run (Runs.of_exec hs) hidle (by simp [hvnfs]) hfree⟩

/-- A VNF between two virtual ports that no panel joins. -/
def unpatchedRun : List Label :=
  [.request (.vnfPost "v" (some "l2fwd") fun _ => (0, 0)), .request (virtPort "a"), .request (virtPort "b"),
    .request (.slotPut "v" 0 (some "a")), .request (.slotPut "v" 1 (some "b")), .request (.resetPut "v"),
    .request (.coremaskPut "v" 0 (some 0x4))]

/-- After the run VNF 0 says it is deployable, on free lcores, and its deploy does not succeed. -/
def Misspeaks (ls : List Label) : Prop :=
  ∃ s last, exec step (.init 1 8 mainCatalog) ls = some s ∧ s.ctrl = .idle last ∧ 0 ∈ s.nfvi.vnfs ∧ s.CoresFree 0 ∧
    (s.nfvi.vnf 0).deployable = true ∧ ¬s.Succeeds 0

theorem misspeaks_of {ls : List Label} (msg : String)
    (h : (exec step (.init 1 8 mainCatalog) ls).map (fun s => (s.ctrl, s.nfvi.vnfs,
      decide (s.CoresFree 0 ∧ (s.nfvi.vnf 0).deployable = true ∧ ¬s.nfvi.Supplies 0))) =
        some (.idle (some (.reply ⟨true, msg⟩)), [0], true)) : Misspeaks ls := by
  obtain ⟨s, hs, hf⟩ := Option.map_eq_some_iff.mp h
  simp only [Prod.mk.injEq, decide_eq_true_eq] at hf
  obtain ⟨hidle, hvnfs, hfree, hdeployable, hno⟩ := hf
  have hv : 0 ∈ s.nfvi.vnfs := by simp [hvnfs]
  refine ⟨s, _, hs, hidle, hv, hfree, hdeployable, fun hsucceeds => hno ?_⟩
  exact (succeeds_iff_of_run (Runs.of_exec hs) hidle hv hfree).mp hsucceeds

/-- Ports that are not patched, and three cores for eight queues. -/
theorem not_deployable_iff : Misspeaks unpatchedRun ∧ Misspeaks (maskedRun 0x1c) :=
  ⟨misspeaks_of "v: coremask bid=0 mask=0x4" (by decide +kernel),
    misspeaks_of "v: coremask bid=0 mask=0x1c" (by decide +kernel)⟩

end Sys

end Susanow
