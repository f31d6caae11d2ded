import Susanow.Ma.Port
import Susanow.Ma.Ring

/-! The two accessor implementations are one function.

`ssn_ma_port` filters a flat table, `ssn_ma_ring` writes index ranges with a
running counter. Configured with the same counts they accept the same counts,
and then every burst on either goes to the same queue index. -/
namespace Susanow

def Outcome.threw {σ α : Type} : Outcome σ α → Prop
  | .throws _ _ => True
  | _ => False

/-- What the caller gets, or how the call failed. -/
def Outcome.answer {σ α : Type} : Outcome σ α → Except (Crash ⊕ String) α
  | .ret a _ => .ok a
  | .throws w _ => .error (.inr w)
  | .crash c => .error (.inl c)

namespace MaRing
open MaPort (Oneside)
variable {α : Type}

/-- A configuration of a port side and one of a ring side agree: both throw, or both
return and then choose the same queues for the same calls. `calls` are access ids with
whatever else the ring's burst takes. -/
def Agree {β : Type} (nAcc : Nat) (port : Outcome Oneside Unit) (ring : Outcome (MaRing α) Unit)
    (bursts : List (Nat × β) → Proc (MaRing α) (List Nat)) : Prop :=
  (port.threw ∧ ring.threw) ∨
    ∃ o r, port = .ret () o ∧ ring = .ret () r ∧
      ∀ calls : List (Nat × β), (∀ c ∈ calls, c.1 < nAcc) →
        (Oneside.bursts (calls.map Prod.fst) o).answer = (bursts calls r).answer

theorem configureEnqAcc_run (r : MaRing α) (nAcc : Nat) :
    configureEnqAcc nAcc r = onEnq (configureSide "enq" r.rings.length nAcc) r := rfl

theorem configureDeqAcc_run (r : MaRing α) (nAcc : Nat) :
    configureDeqAcc nAcc r = onDeq (configureSide "deq" r.rings.length nAcc) r := rfl

/-- The argument both sides share: what a ring side does is known on its accessors. -/
theorem agree_of_sides {β : Type} {r : MaRing α} {nAcc : Nat} (o : Oneside) (dpdkPid : Nat)
    (hpos : 1 ≤ nAcc) (view : MaRing α → List Accessor) (config : Outcome (MaRing α) Unit)
    (bursts : List (Nat × β) → Proc (MaRing α) (List Nat)) (hnil : ∀ r, bursts [] r = .ret [] r)
    (hthrows : ¬ nAcc ∣ r.rings.length → config.threw)
    (hreturns : nAcc ∣ r.rings.length → ∃ r', config = .ret () r' ∧
      Accessor.AllTurned (r.rings.length / nAcc) nAcc (fun _ => 0) (view r') ∧
      (0 < r.rings.length → ∀ calls : List (Nat × β), (∀ c ∈ calls, c.1 < nAcc) →
        Proc.Returns (bursts calls) r' fun idxs _ =>
          idxs = RoundRobin.turns (r.rings.length / nAcc) (fun _ => 0) (calls.map Prod.fst)) ∧
      (r.rings.length = 0 → ∀ c rest, c.1 < nAcc →
        bursts (c :: rest) r' = .crash .divisionByZero)) :
    Agree nAcc (Oneside.configureQueueAccessor dpdkPid r.rings.length nAcc o) config bursts := by
  by_cases hdvd : nAcc ∣ r.rings.length
  · obtain ⟨_, o', hconf, hconfigured⟩ := Oneside.configure_returns o dpdkPid _ nAcc (.inr hdvd)
    obtain ⟨r', hring, hturned, hsome, hnone⟩ := hreturns hdvd
    refine .inr ⟨o', r', hconf, hring, fun calls hcalls => ?_⟩
    have hfst : ∀ aid ∈ calls.map Prod.fst, aid < nAcc := by
      simpa using fun a b hab => hcalls (a, b) hab
    rcases Nat.eq_zero_or_pos r.rings.length with hzero | hque
    · cases calls with
      | nil => rw [hnil]; rfl
      | cons c rest =>
        have hport := hconfigured.turned
        rw [hzero, Nat.zero_div] at hport
        rw [hnone hzero c rest (hcalls c List.mem_cons_self), List.map_cons,
          Oneside.bursts_crash hport (hcalls c List.mem_cons_self)]
        rfl
    · have hq : 0 < r.rings.length / nAcc := Nat.div_pos (Nat.le_of_dvd hque hdvd) (by omega)
      obtain ⟨_, o'', hport, rfl, -⟩ := Oneside.bursts_returns hconfigured.turned hq _ hfst
      obtain ⟨_, r'', hrun, rfl⟩ := hsome hque calls hcalls
      rw [hport, hrun]
      rfl
  · exact .inl ⟨by rw [Oneside.configure_throws o dpdkPid _ nAcc hpos hdvd]; trivial, hthrows hdvd⟩

/-- **The two accessor implementations agree.** Whatever either was configured to before,
on both sides of the ring. -/
theorem accessors_agree (o : Oneside) (r : MaRing α) (dpdkPid nAcc : Nat) (halloc : Allocated r)
    (hpos : 1 ≤ nAcc) :
    Agree nAcc (Oneside.configureQueueAccessor dpdkPid r.rings.length nAcc o)
        (configureEnqAcc nAcc r) enqueueBursts ∧
      Agree nAcc (Oneside.configureQueueAccessor dpdkPid r.rings.length nAcc o)
        (configureDeqAcc nAcc r) dequeueBursts := by
  constructor
  · refine agree_of_sides o dpdkPid hpos MaRing.enqAccessors _ _ (fun _ => rfl) (fun hdvd => ?_)
      fun hdvd => ?_
    · rw [configureEnqAcc_run, onEnq, Proc.zoom, configureSide_throws _ _ _ _ hpos hdvd]
      trivial
    · obtain ⟨_, accs, hrun, hturned⟩ :=
        configureSide_returns "enq" r.rings.length nAcc r.enqAccessors hpos hdvd
      refine ⟨{r with enqAccessors := accs}, ?_, hturned, fun hque calls hcalls => ?_,
        fun hzero c rest hc => ?_⟩
      · rw [configureEnqAcc_run, onEnq, Proc.zoom, hrun]
      · exact enqueueBursts_returns (r := {r with enqAccessors := accs}) hturned halloc hdvd hque
          calls hcalls
      · rw [hzero, Nat.zero_div] at hturned
        exact enqueueBursts_crash hturned hc rest
  · refine agree_of_sides o dpdkPid hpos MaRing.deqAccessors _ _ (fun _ => rfl) (fun hdvd => ?_)
      fun hdvd => ?_
    · rw [configureDeqAcc_run, onDeq, Proc.zoom, configureSide_throws _ _ _ _ hpos hdvd]
      trivial
    · obtain ⟨_, accs, hrun, hturned⟩ :=
        configureSide_returns "deq" r.rings.length nAcc r.deqAccessors hpos hdvd
      refine ⟨{r with deqAccessors := accs}, ?_, hturned, fun hque calls hcalls => ?_,
        fun hzero c rest hc => ?_⟩
      · rw [configureDeqAcc_run, onDeq, Proc.zoom, hrun]
      · exact dequeueBursts_returns (r := {r with deqAccessors := accs}) hturned halloc hdvd hque
          calls hcalls
      · rw [hzero, Nat.zero_div] at hturned
        exact dequeueBursts_crash hturned hc rest

/-- Eight rings, as a patch panel allocates them. -/
def eightRings : MaRing Unit :=
  {(init "ring" 0 0 : MaRing Unit) with rings := List.replicate 8 (some {name := "ring", size := ringSize})}

theorem accessors_agree_eight_by_two :
    Agree 2 (Oneside.configureQueueAccessor 0 8 2 {}) (configureEnqAcc 2 eightRings) enqueueBursts ∧
      Agree 2 (Oneside.configureQueueAccessor 0 8 2 {}) (configureDeqAcc 2 eightRings)
        dequeueBursts :=
  accessors_agree {} eightRings 0 2
    (fun _ hi => ⟨_, List.getElem?_replicate_of_lt (by simpa [eightRings] using hi)⟩) (by decide)

end MaRing

end Susanow
