import Susanow.Nfvi.Attachment

/-! Which counts a deploy can configure.

`deploy` gives every port the numbers of accesses that its VNF's blocks have asked
for. A side of a device takes none, or a number its queues divide by. A ring divides
by the number before it looks at it: it takes no zero, and it has to be there.
`deploy` comes to its blocks, or returns -1 before, exactly if the counts fit every
port or there is a slot that stops it first. -/
namespace Susanow

open Proc (ReturnsIff Returns)
open Accessor (AllTurned)

namespace MaPort.Oneside

theorem configure_returnsIff (o : Oneside) (dpdkPid nQue nAcc : Nat) :
    ReturnsIff (configureQueueAccessor dpdkPid nQue nAcc) o (nAcc = 0 ∨ nAcc ∣ nQue) fun _ o' =>
      Configured dpdkPid nQue nAcc o' where
  returns h := configure_returns o dpdkPid nQue nAcc h
  stuck h a t hrun := by
    have hne : ¬nAcc = 0 := fun h0 => h (.inl h0)
    rw [configure_throws o dpdkPid nQue nAcc (by omega) fun hdvd => h (.inr hdvd)] at hrun
    cases hrun

end MaPort.Oneside

/-- What a device is asked for it can deal out. -/
def MaPort.Fits (nRxacc nTxacc : Nat) (ma : MaPort) : Prop :=
  (nRxacc = 0 ∨ nRxacc ∣ ma.nRxq) ∧ (nTxacc = 0 ∨ nTxacc ∣ ma.nTxq)

/-- Each accessor of either side has its slice of the queues. -/
structure MaPort.Shares (nRxacc nTxacc : Nat) (ma ma' : MaPort) : Prop where
  nRxq : ma'.nRxq = ma.nRxq
  nTxq : ma'.nTxq = ma.nTxq
  rx : AllTurned (ma.nRxq / nRxacc) nRxacc (fun _ => 0) ma'.rx.accessors
  tx : AllTurned (ma.nTxq / nTxacc) nTxacc (fun _ => 0) ma'.tx.accessors

theorem MaPort.configureAccessor_returnsIff (m : MaPort) (nRxacc nTxacc : Nat) :
    ReturnsIff (configureAccessor nRxacc nTxacc) m (m.Fits nRxacc nTxacc) fun _ m' => m.Shares nRxacc nTxacc m' := by
  have hrx : ReturnsIff (onRx (Oneside.configureQueueAccessor m.dpdkPid m.nRxq nRxacc)) m
      (nRxacc = 0 ∨ nRxacc ∣ m.nRxq) fun _ m' => (m'.nRxq = m.nRxq ∧ m'.nTxq = m.nTxq) ∧
        AllTurned (m.nRxq / nRxacc) nRxacc (fun _ => 0) m'.rx.accessors :=
    Proc.returnsIff_zoom ((Oneside.configure_returnsIff ..).weaken fun _ _ h => ⟨⟨rfl, rfl⟩, h.turned⟩)
  have htx (m' : MaPort) : ReturnsIff (onTx (Oneside.configureQueueAccessor m.dpdkPid m.nTxq nTxacc)) m'
      (nTxacc = 0 ∨ nTxacc ∣ m.nTxq) fun _ m'' => (m''.nRxq = m'.nRxq ∧ m''.nTxq = m'.nTxq ∧ m''.rx = m'.rx) ∧
        AllTurned (m.nTxq / nTxacc) nTxacc (fun _ => 0) m''.tx.accessors :=
    Proc.returnsIff_zoom ((Oneside.configure_returnsIff ..).weaken fun _ _ h => ⟨⟨rfl, rfl, rfl⟩, h.turned⟩)
  refine Proc.returnsIff_bind_ret (Proc.get_run m) (hrx.bind fun _ m' ⟨hm, hturned⟩ => ?_)
  refine (htx m').weaken fun _ _ ⟨hm', hturned'⟩ => ⟨hm'.1.trans hm.1, hm'.2.1.trans hm.2, ?_, hturned'⟩
  rw [hm'.2.2]
  exact hturned

namespace MaRing

/-- The number is not zero, and the rings divide by it. -/
def Fits {α : Type} (nAcc : Nat) (r : MaRing α) : Prop := nAcc ≠ 0 ∧ nAcc ∣ r.getNumQue

theorem configureSide_returnsIff (side : String) (nQue nAcc : Nat) (accs : List Accessor) :
    ReturnsIff (configureSide side nQue nAcc) accs (nAcc ≠ 0 ∧ nAcc ∣ nQue) fun _ accs' =>
      AllTurned (nQue / nAcc) nAcc (fun _ => 0) accs' where
  returns := fun ⟨hne, hdvd⟩ => configureSide_returns side nQue nAcc accs (by omega) hdvd
  stuck h a t hrun := by
    rcases Nat.eq_zero_or_pos nAcc with rfl | hpos
    · rw [configureSide_crash] at hrun
      cases hrun
    · rw [configureSide_throws side nQue nAcc accs hpos fun hdvd => h ⟨by omega, hdvd⟩] at hrun
      cases hrun

/-- Each accessor of one side of a ring has its slice of the queues. -/
def Shares {α : Type} (nAcc : Nat) (r : MaRing α) (accs : List Accessor) : Prop :=
  AllTurned (r.getNumQue / nAcc) nAcc (fun _ => 0) accs

theorem configureDeqAcc_returnsIff {α : Type} (nAcc : Nat) (r : MaRing α) :
    ReturnsIff (configureDeqAcc nAcc) r (r.Fits nAcc) fun _ r' =>
      ∃ accs, r.Shares nAcc accs ∧ r' = {r with deqAccessors := accs} := by
  refine Proc.returnsIff_bind_ret (Proc.get_run r) (Proc.returnsIff_zoom ?_)
  exact (configureSide_returnsIff "deq" r.rings.length nAcc _).weaken fun _ accs h => ⟨accs, h, rfl⟩

theorem configureEnqAcc_returnsIff {α : Type} (nAcc : Nat) (r : MaRing α) :
    ReturnsIff (configureEnqAcc nAcc) r (r.Fits nAcc) fun _ r' =>
      ∃ accs, r.Shares nAcc accs ∧ r' = {r with enqAccessors := accs} := by
  refine Proc.returnsIff_bind_ret (Proc.get_run r) (Proc.returnsIff_zoom ?_)
  exact (configureSide_returnsIff "enq" r.rings.length nAcc _).weaken fun _ accs h => ⟨accs, h, rfl⟩

end MaRing

namespace Nfvi

/-! ### Ports -/

/-- The ring is there, and takes the number. -/
def RingFits (n : Nfvi) (nAcc : Nat) (r : Option RingRef) : Prop :=
  ∃ e ∈ r, e.ppp ∈ n.ppps ∧ (n.ring e).Fits nAcc

/-- The port takes the numbers of accesses it is asked for. -/
def AccFits (n : Nfvi) (p : Nat) : Prop :=
  match (n.port p).dev with
  | .dpdk _ _ ma => ma.Fits (n.port p).nRxacc (n.port p).nTxacc
  | .virt tx rx => n.RingFits (n.port p).nRxacc rx ∧ n.RingFits (n.port p).nTxacc tx

instance (nRxacc nTxacc : Nat) (ma : MaPort) : Decidable (ma.Fits nRxacc nTxacc) :=
  inferInstanceAs (Decidable (_ ∧ _))

instance (nAcc : Nat) (r : MaRing Mbuf) : Decidable (r.Fits nAcc) :=
  inferInstanceAs (Decidable (_ ∧ _))

instance (n : Nfvi) (nAcc : Nat) (r : Option RingRef) : Decidable (n.RingFits nAcc r) :=
  inferInstanceAs (Decidable (∃ e ∈ r, _))

instance (n : Nfvi) (p : Nat) : Decidable (n.AccFits p) := by
  unfold AccFits
  split <;> infer_instance

/-- What fits is what did, and nothing has moved. -/
structure SameFit (n n' : Nfvi) : Prop where
  vnfs : n'.vnfs = n.vnfs
  vnf : n'.vnf = n.vnf
  ports : n'.ports = n.ports
  rings : ∀ nAcc r, n'.RingFits nAcc r ↔ n.RingFits nAcc r
  fits : ∀ p, n'.AccFits p ↔ n.AccFits p

theorem SameFit.refl (n : Nfvi) : SameFit n n := ⟨rfl, rfl, rfl, fun _ _ => Iff.rfl, fun _ => Iff.rfl⟩

theorem SameFit.trans {n n' n'' : Nfvi} (h : SameFit n n') (h' : SameFit n' n'') : SameFit n n'' where
  vnfs := h'.vnfs.trans h.vnfs
  vnf := h'.vnf.trans h.vnf
  ports := h'.ports.trans h.ports
  rings nAcc r := (h'.rings nAcc r).trans (h.rings nAcc r)
  fits p := (h'.fits p).trans (h.fits p)

theorem sameFit_setRing {n : Nfvi} {e : RingRef} {x : MaRing Mbuf} (hx : x.rings = (n.ring e).rings) :
    SameFit n (n.setRing e x) := by
  have hport : (n.setRing e x).port = n.port := by cases e <;> rfl
  have hring (e' : RingRef) (nAcc : Nat) : ((n.setRing e x).ring e').Fits nAcc ↔ (n.ring e').Fits nAcc := by
    rw [ring_setRing]
    split
    · next h =>
      subst h
      simp only [MaRing.Fits, MaRing.getNumQue, hx]
    · rfl
  have hppps : (n.setRing e x).ppps = n.ppps := by cases e <;> rfl
  have hrings (nAcc : Nat) (r : Option RingRef) : (n.setRing e x).RingFits nAcc r ↔ n.RingFits nAcc r := by
    simp only [RingFits, hppps, hring]
  refine ⟨by cases e <;> rfl, by cases e <;> rfl, by cases e <;> rfl, hrings, fun p => ?_⟩
  unfold AccFits
  rw [hport]
  split
  · rfl
  · rw [hrings, hrings]

theorem sameFit_deq (n : Nfvi) (e : RingRef) (accs : List Accessor) :
    SameFit n (n.setRing e {n.ring e with deqAccessors := accs}) := sameFit_setRing rfl

theorem sameFit_enq (n : Nfvi) (e : RingRef) (accs : List Accessor) :
    SameFit n (n.setRing e {n.ring e with enqAccessors := accs}) := sameFit_setRing rfl

theorem sameFit_setDev {n : Nfvi} {p portId socketId : Nat} {ma ma' : MaPort}
    (hdev : (n.port p).dev = .dpdk portId socketId ma) (hq : ma'.nRxq = ma.nRxq ∧ ma'.nTxq = ma.nTxq) :
    SameFit n (n.editPort p (VnfPort.setDev (.dpdk portId socketId ma'))) := by
  refine ⟨rfl, rfl, rfl, fun _ _ => Iff.rfl, fun q => ?_⟩
  by_cases h : q = p
  · subst h
    simp only [AccFits, editPort, Function.update_self, VnfPort.setDev, hdev, MaPort.Fits, hq.1, hq.2]
  · have hport : (n.editPort p (VnfPort.setDev (.dpdk portId socketId ma'))).port q = n.port q :=
      Function.update_of_ne h _ _
    unfold AccFits
    rw [hport]
    rfl

theorem onRing_returnsIff {n : Nfvi} {nAcc : Nat} {r : Option RingRef} {q : Proc (MaRing Mbuf) Unit}
    {Q : MaRing Mbuf → MaRing Mbuf → Prop} (h : ∀ x, ReturnsIff q x (x.Fits nAcc) fun _ x' => Q x x') :
    ReturnsIff (onRing r q) n (n.RingFits nAcc r) fun _ n' =>
      ∃ e ∈ r, ∃ x, Q (n.ring e) x ∧ n' = n.setRing e x := by
  cases r with
  | none =>
    refine ⟨fun hfit => ?_, fun _ a t hrun => ?_⟩
    · obtain ⟨e, he, -⟩ := hfit
      cases he
    · cases hrun
  | some e =>
    by_cases he : e.ppp ∈ n.ppps
    · have hrun : onRing (some e) q n = Proc.zoom (fun n => ring n e) (fun n x => setRing n e x) q n := by
        simp only [onRing, Proc.get_bind, if_pos he]
      have hzoom : ReturnsIff (Proc.zoom (fun n => ring n e) (fun n x => setRing n e x) q) n
          ((n.ring e).Fits nAcc) fun _ n' => ∃ e' ∈ some e, ∃ x, Q (n.ring e') x ∧ n' = n.setRing e' x :=
        Proc.returnsIff_zoom ((h (n.ring e)).weaken fun _ x hx => ⟨e, rfl, x, hx, rfl⟩)
      refine ⟨fun ⟨e', he', _, hfit⟩ => ?_, fun hno a t ht => ?_⟩
      · cases he'
        obtain ⟨a, t, ht, hq⟩ := hzoom.returns hfit
        exact ⟨a, t, hrun.trans ht, hq⟩
      · exact hzoom.stuck (fun hfit => hno ⟨e, rfl, he, hfit⟩) a t (hrun.symm.trans ht)
    · refine ⟨fun ⟨e', he', hlive, _⟩ => ?_, fun _ a t hrun => ?_⟩
      · cases he'
        exact absurd hlive he
      · simp only [onRing, Proc.get_bind, if_neg he] at hrun
        cases hrun

/-- What `config_acc` of port `p` has done when it returns. -/
inductive Assigns (p : Nat) (n : Nfvi) : Nfvi → Prop
  | device {portId socketId : Nat} {ma ma' : MaPort} : (n.port p).dev = .dpdk portId socketId ma →
      ma.Shares (n.port p).nRxacc (n.port p).nTxacc ma' →
      Assigns p n (n.editPort p (VnfPort.setDev (.dpdk portId socketId ma')))
  | rings {tx rx : RingRef} {enq deq : List Accessor} {n' : Nfvi} : (n.port p).dev = .virt (some tx) (some rx) →
      (n.ring rx).Shares (n.port p).nRxacc deq → n' = n.setRing rx {n.ring rx with deqAccessors := deq} →
      (n'.ring tx).Shares (n.port p).nTxacc enq →
      Assigns p n (n'.setRing tx {n'.ring tx with enqAccessors := enq})

theorem Assigns.sameFit {n n' : Nfvi} {p : Nat} (h : Assigns p n n') : SameFit n n' := by
  cases h with
  | device hdev hshares => exact sameFit_setDev hdev ⟨hshares.nRxq, hshares.nTxq⟩
  | rings _ _ hn' _ => exact (hn' ▸ sameFit_deq n _ _).trans (sameFit_enq _ _ _)

theorem configAcc_returnsIff {n : Nfvi} {p : Nat} (hp : p ∈ n.ports) :
    ReturnsIff (configAcc p) n (n.AccFits p) fun _ n' => Assigns p n n' := by
  refine Proc.returnsIff_bind_ret (portAt_of_mem hp) ?_
  cases hdev : (n.port p).dev with
  | dpdk portId socketId ma =>
    have hfits : n.AccFits p ↔ ma.Fits (n.port p).nRxacc (n.port p).nTxacc := by simp only [AccFits, hdev]
    refine ReturnsIff.congr ?_ hfits.symm
    exact Proc.returnsIff_zoom
      ((MaPort.configureAccessor_returnsIff ma _ _).weaken fun _ _ hshares => .device hdev hshares)
  | virt tx rx =>
    have hfits : n.AccFits p ↔ n.RingFits (n.port p).nRxacc rx ∧ n.RingFits (n.port p).nTxacc tx := by
      simp only [AccFits, hdev]
    refine ReturnsIff.congr ?_ hfits.symm
    refine (onRing_returnsIff (MaRing.configureDeqAcc_returnsIff _)).bind ?_
    rintro _ n' ⟨er, hrx, _, ⟨deq, hdeq, rfl⟩, hn'⟩
    cases hrx
    have hsame : SameFit n n' := hn' ▸ sameFit_deq n er deq
    have htx := onRing_returnsIff (n := n') (r := tx) (MaRing.configureEnqAcc_returnsIff (n.port p).nTxacc)
    refine (htx.congr (hsame.rings _ _)).weaken ?_
    rintro _ _ ⟨et, htx, _, ⟨enq, henq, rfl⟩, rfl⟩
    cases htx
    exact .rings hdev hdeq hn' henq

end Nfvi

/-! ### Pointers come in pairs -/

/-- A virt port has both its rings or neither. -/
def Wiring.Paired (w : Wiring) : Prop := ∀ p tx rx, w.link p = some (tx, rx) → tx.isSome = rx.isSome

theorem Wiring.Paired.moved {g : Wiring.Guard} {w w' : Wiring} (h : w.Paired) (hm : w.Moved g w') : w'.Paired := by
  have hset {link : Nat → Option (Option RingRef × Option RingRef)} (tx' rx' : Option RingRef)
      (hnew : tx'.isSome = rx'.isSome) (q : Nat) (hold : ∀ p tx rx, link p = some (tx, rx) → tx.isSome = rx.isSome) :
      ∀ p tx rx, Function.update link q (some (tx', rx')) p = some (tx, rx) → tx.isSome = rx.isSome := by
    intro p tx rx hl
    by_cases hp : p = q
    · subst hp
      rw [Function.update_self] at hl
      cases hl
      exact hnew
    · rw [Function.update_of_ne hp] at hl
      exact hold p tx rx hl
  rcases hm with rfl | hm
  · exact h
  · cases hm with
    | addVnf | delVnf | attach | dettach | delPort => exact h
    | addPort name link hname hlink =>
      intro p tx rx hl
      rcases hlink with rfl | rfl
      · by_cases hp : p = w.next
        · subst hp
          simp at hl
        · exact h p tx rx (by simpa [hp] using hl)
      · exact hset none none rfl w.next h p tx rx hl
    | addPpp name l r =>
      have hleft := hset (some (.leftEnq w.next)) (some (.rightEnq w.next)) rfl l h
      exact hset (some (.rightEnq w.next)) (some (.leftEnq w.next)) rfl r hleft
    | delPpp a => exact hset none none rfl (w.ends a).2 (hset none none rfl (w.ends a).1 h)

theorem paired_of_run {nSocket nLcore : Nat} {catalog : List (String × VnfClass)} {ls : List Label} {s : Sys}
    (h : Runs Sys.step Always (.init nSocket nLcore catalog) ls s) : s.nfvi.wiring.Paired := by
  refine h.invariant (I := fun s => s.nfvi.wiring.Paired) (fun p tx rx hl => ?_) fun s l t hI _ hs =>
    hI.moved (Sys.step_moved .trivial (fun r _ => Nfvi.admits_trivial _ r) hs)
  cases hl
  rfl

namespace Nfvi

/-! ### A deploy up to its blocks -/

/-- The slot has a port, which is a device or is patched. -/
def Plugged (n : Nfvi) (slot : Option Nat) : Prop := ∃ p ∈ slot, (n.port p).dev ≠ .virt none none

instance (n : Nfvi) (slot : Option Nat) : Decidable (n.Plugged slot) :=
  inferInstanceAs (Decidable (∃ p ∈ slot, _))

theorem deployable_run {n : Nfvi} (hpaired : n.wiring.Paired) (p : Nat) :
    (n.port p).deployable = .ok (decide ((n.port p).dev ≠ .virt none none)) := by
  cases hdev : (n.port p).dev with
  | dpdk portId socketId ma => simp [VnfPort.deployable, hdev]
  | virt tx rx =>
    have hsome : tx.isSome = rx.isSome := hpaired p tx rx (by simp [wiring, hdev, Dev.link])
    cases tx <;> cases rx <;> simp_all [VnfPort.deployable, VnfPort.patched]

theorem portsDeployable_run {n : Nfvi} (hpaired : n.wiring.Paired) {slots : List (Option Nat)}
    (hlive : ∀ p, some p ∈ slots → p ∈ n.ports) :
    portsDeployable slots n = .ret (decide (∀ slot ∈ slots, n.Plugged slot)) n := by
  induction slots with
  | nil => simp [portsDeployable]
  | cons slot rest ih =>
    cases slot with
    | none => simp [portsDeployable, Plugged]
    | some p =>
      have hrest := ih fun q hq => hlive q (List.mem_cons_of_mem _ hq)
      rw [portsDeployable, Proc.bind_ret (portAt_of_mem (hlive p List.mem_cons_self)), deployable_run hpaired p]
      by_cases hdev : (n.port p).dev = .virt none none
      · simp [Plugged, hdev]
      · simp [Plugged, hdev, hrest]

/-- If there is a deployable port in every slot, every port takes its numbers. -/
def Fitting (n : Nfvi) (v : Nat) : Prop :=
  (∀ slot ∈ (n.vnf v).ports, n.Plugged slot) → ∀ slot ∈ (n.vnf v).ports, ∀ p ∈ slot, n.AccFits p

instance (n : Nfvi) (v : Nat) : Decidable (n.Fitting v) :=
  inferInstanceAs (Decidable ((∀ slot ∈ _, _) → ∀ slot ∈ _, ∀ p ∈ slot, _))

theorem configreAcc_returnsIff {n : Nfvi} {v : Nat} (hv : v ∈ n.vnfs)
    (hlive : ∀ p, some p ∈ (n.vnf v).ports → p ∈ n.ports)
    (hfull : ∀ slot ∈ (n.vnf v).ports, n.Plugged slot) :
    ReturnsIff (configreAcc v) n (∀ slot ∈ (n.vnf v).ports, ∀ p ∈ slot, n.AccFits p) fun _ n' => SameFit n n' := by
  refine Proc.returnsIff_bind_ret (vnfAt_of_mem hv) ?_
  refine ReturnsIff.congr (Proc.returnsIff_forRange (fun _ n' => SameFit n n')
    (fun i => ∀ p, (n.vnf v).ports[i]? = some (some p) → n.AccFits p) (.refl n) fun i hi n' hsame => ?_) ?_
  · obtain ⟨slot, hslot⟩ : ∃ slot, (n.vnf v).ports[i]? = some slot := ⟨_, List.getElem?_eq_getElem hi⟩
    obtain ⟨p, hp, -⟩ := hfull slot (List.mem_of_getElem? hslot)
    cases hp
    have hlive' : p ∈ n'.ports := hsame.ports ▸ hlive p (List.mem_of_getElem? hslot)
    have hrun : slotAt v i n' = .ret p n' := by
      rw [slotAt, Proc.bind_ret (vnfAt_of_mem (hsame.vnfs ▸ hv)), hsame.vnf, hslot]
      rfl
    refine Proc.returnsIff_bind_ret hrun ?_
    refine ((configAcc_returnsIff hlive').congr ((hsame.fits p).trans ?_)).weaken fun _ _ h => hsame.trans h.sameFit
    rw [hslot]
    exact ⟨fun hfit q hq => by cases hq; exact hfit, fun hfit => hfit p rfl⟩
  · constructor
    · intro h slot hslot p hp
      obtain ⟨i, hi⟩ := List.getElem?_of_mem hslot
      cases hp
      exact h i (List.getElem?_eq_some_iff.mp hi).1 p hi
    · exact fun h i _ p hp => h (some p) (List.mem_of_getElem? hp) p rfl

theorem deploy_returnsIff {n : Nfvi} {v : Nat} (hv : v ∈ n.vnfs) (hpaired : n.wiring.Paired)
    (hlive : ∀ p, some p ∈ (n.vnf v).ports → p ∈ n.ports) :
    ReturnsIff (deploy v) n (n.Fitting v) fun nx _ => nx = .launch v ∨ nx = .done (.deployed v (-1)) := by
  have hports : ReturnsIff (deployPorts v) n (n.Fitting v) fun _ _ => True := by
    refine Proc.returnsIff_bind_ret (vnfAt_of_mem hv) ?_
    refine Proc.returnsIff_bind_ret (portsDeployable_run hpaired hlive) ?_
    by_cases hfull : ∀ slot ∈ (n.vnf v).ports, n.Plugged slot
    · rw [decide_eq_true hfull]
      have hconf := (configreAcc_returnsIff hv hlive hfull).bind (f := fun _ => pure true) (G := True)
        (R := fun _ _ => True) fun _ t _ => Proc.returnsIff_of_ret (Proc.pure_run true t) trivial
      exact hconf.congr ((iff_of_eq (and_true _)).trans ⟨fun h _ => h, fun h => h hfull⟩)
    · rw [decide_eq_false hfull]
      exact (Proc.returnsIff_of_ret (Proc.pure_run false n) trivial).congr
        (iff_of_true trivial fun h => absurd h hfull)
  refine (hports.bind (G := True) fun ok t _ => ?_).congr (iff_of_eq (and_true _))
  cases ok
  · exact Proc.returnsIff_of_ret (Proc.pure_run _ t) (.inr rfl)
  · exact Proc.returnsIff_of_ret (Proc.pure_run _ t) (.inl rfl)

end Nfvi

end Susanow
