import Mathlib.Logic.Function.Basic

/-! Runs of a labelled machine.

A machine is a partial step function: `none` is a label that is not enabled, or
a step after which nothing is defined. `Runs step Rule s ls t` is a run from `s`
to `t` along `ls` every step of which satisfies `Rule`, a condition on the state
before the step and the label; `Always` is the rule that asks nothing. An
invariant needs one proof per step and `Runs.invariant` carries it over a run. -/
namespace Susanow
variable {S L : Type}

inductive Runs (step : S → L → Option S) (Rule : S → L → Prop) : S → List L → S → Prop
  | done (s : S) : Runs step Rule s [] s
  | next {s t u : S} {l : L} {ls : List L} : step s l = some t → Rule s l →
      Runs step Rule t ls u → Runs step Rule s (l :: ls) u

def Always : S → L → Prop := fun _ _ => True

/-- The state a list of labels leads to. -/
def exec (step : S → L → Option S) (s : S) : List L → Option S
  | [] => some s
  | l :: ls => (step s l).bind fun t => exec step t ls

theorem exec_append (step : S → L → Option S) (s : S) (ls ms : List L) :
    exec step s (ls ++ ms) = (exec step s ls).bind fun t => exec step t ms := by
  induction ls generalizing s with
  | nil => rfl
  | cons l ls ih =>
    rw [List.cons_append, exec, exec, Option.bind_assoc]
    congr 1
    funext t
    exact ih t

/-- Whether a list of labels can be taken with the rule kept at every step. -/
def obeys (step : S → L → Option S) (Rule : S → L → Prop) [∀ s l, Decidable (Rule s l)] (s : S) :
    List L → Bool
  | [] => true
  | l :: ls => decide (Rule s l) && match step s l with
    | some t => obeys step Rule t ls
    | none => false

namespace Runs
variable {step : S → L → Option S} {Rule Rule' : S → L → Prop}

theorem invariant {I : S → Prop} {s t : S} {ls : List L} (h : Runs step Rule s ls t) (h0 : I s)
    (hstep : ∀ s l t, I s → Rule s l → step s l = some t → I t) : I t := by
  induction h with
  | done s => exact h0
  | next hs hr _ ih => exact ih (hstep _ _ _ h0 hr hs)

theorem weaken {s t : S} {ls : List L} (h : Runs step Rule s ls t)
    (hrule : ∀ s l, Rule s l → Rule' s l) : Runs step Rule' s ls t := by
  induction h with
  | done s => exact .done s
  | next hs hr _ ih => exact .next hs (hrule _ _ hr) ih

theorem append {s t u : S} {ls ms : List L} (h : Runs step Rule s ls t) (h' : Runs step Rule t ms u) :
    Runs step Rule s (ls ++ ms) u := by
  induction h with
  | done s => exact h'
  | next hs hr _ ih => exact .next hs hr (ih h')

/-- Labels that the rule allows in every state. -/
theorem of_exec_rule {s t : S} {ls : List L} (hr : ∀ l ∈ ls, ∀ s, Rule s l) (h : exec step s ls = some t) :
    Runs step Rule s ls t := by
  induction ls generalizing s with
  | nil =>
    cases h
    exact .done _
  | cons l ls ih =>
    obtain ⟨u, hu, hrest⟩ := Option.bind_eq_some_iff.mp h
    exact .next hu (hr l List.mem_cons_self s) (ih (fun m hm => hr m (List.mem_cons_of_mem l hm)) hrest)

theorem of_exec {s t : S} {ls : List L} (h : exec step s ls = some t) : Runs step Always s ls t :=
  of_exec_rule (fun _ _ _ => trivial) h

theorem of_obeys [∀ s l, Decidable (Rule s l)] {s t : S} {ls : List L}
    (hr : obeys step Rule s ls = true) (h : exec step s ls = some t) : Runs step Rule s ls t := by
  induction ls generalizing s with
  | nil =>
    cases h
    exact .done _
  | cons l ls ih =>
    obtain ⟨u, hu, hrest⟩ := Option.bind_eq_some_iff.mp h
    simp only [obeys, hu, Bool.and_eq_true, decide_eq_true_eq] at hr
    exact .next hu hr.1 (ih hr.2 hrest)

/-- Rules that agree wherever an invariant of one of them holds have the same runs. -/
theorem rule_iff {I : S → Prop} {s t : S} {ls : List L} (h0 : I s)
    (hkeep : ∀ s l t, I s → Rule s l → step s l = some t → I t)
    (hiff : ∀ s l t, I s → step s l = some t → (Rule s l ↔ Rule' s l)) :
    Runs step Rule s ls t ↔ Runs step Rule' s ls t := by
  constructor
  · intro h
    induction h with
    | done s => exact .done s
    | next hs hr _ ih => exact .next hs ((hiff _ _ _ h0 hs).mp hr) (ih (hkeep _ _ _ h0 hr hs))
  · intro h
    induction h with
    | done s => exact .done s
    | next hs hr _ ih =>
      have hr' := (hiff _ _ _ h0 hs).mpr hr
      exact .next hs hr' (ih (hkeep _ _ _ h0 hr' hs))

/-- What a step leads to is `P` just when the rule is kept: a run stays in `P` just when it keeps
the rule. -/
theorem prefixes_iff {I P : S → Prop} {s t : S} {ls : List L} (h : Runs step Always s ls t) (hI : I s) (hP : P s)
    (hstep : ∀ s l t, I s → P s → step s l = some t → I t ∧ (P t ↔ Rule s l)) :
    (∀ ms, ms <+: ls → ∀ u, exec step s ms = some u → P u) ↔ Runs step Rule s ls t := by
  induction h with
  | done s =>
    refine ⟨fun _ => .done s, fun _ ms hms u hu => ?_⟩
    rw [List.prefix_nil.mp hms] at hu
    cases hu
    exact hP
  | @next s t u l ls hs _ _ ih =>
    obtain ⟨hI', hiff⟩ := hstep s l t hI hP hs
    have hexec (ms : List L) : exec step s (l :: ms) = exec step t ms := by
      rw [exec, hs]
      rfl
    constructor
    · intro hall
      have ht : P t := hall [l] (List.prefix_cons_inj l |>.mpr List.nil_prefix) t (by rw [hexec]; rfl)
      refine .next hs (hiff.mp ht) ((ih hI' ht).mp fun ms hms v hv => ?_)
      exact hall (l :: ms) ((List.prefix_cons_inj l).mpr hms) v ((hexec ms).trans hv)
    · rintro (_ | ⟨hs', hr, hrest⟩) ms hms v hv
      cases hs.symm.trans hs'
      cases ms with
      | nil =>
        cases hv
        exact hP
      | cons m ms =>
        obtain ⟨rfl, hrest'⟩ := List.cons_prefix_cons.mp hms
        exact (ih hI' (hiff.mpr hr)).mpr hrest ms hrest' v ((hexec ms).symm.trans hv)

/-- A run that gets into `P` takes the step that gets there. -/
theorem enters {P : S → Prop} {s t : S} {ls : List L} (h : Runs step Rule s ls t) (hs : ¬P s) (ht : P t) :
    ∃ ms l ns u v, ls = ms ++ l :: ns ∧ Runs step Rule s ms u ∧ Rule u l ∧ step u l = some v ∧ ¬P u ∧ P v := by
  induction h with
  | done s => exact absurd ht hs
  | @next s t u l ls hstep hr hrest ih =>
    by_cases hP : P t
    · exact ⟨[], l, ls, s, t, rfl, .done s, hr, hstep, hs, hP⟩
    · obtain ⟨ms, m, ns, v, w, rfl, hrun, hrule, hvw, hv, hw⟩ := ih hP ht
      exact ⟨l :: ms, m, ns, v, w, rfl, .next hstep hr hrun, hrule, hvw, hv, hw⟩

end Runs

end Susanow
