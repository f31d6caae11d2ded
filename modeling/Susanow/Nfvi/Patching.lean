import Susanow.Nfvi.Attachment

/-! Patching, as long as nobody patches a port to itself or deletes a patched one.

A panel's two ends and the ring pointers of its ports agree in every state of every
run in which no panel is made of one port and no end of a panel is deleted. The code
asks for neither: the last part of this module patches a port to itself, and deletes
an end. -/
namespace Susanow.Wiring
open Function (update)

def Endpoint (w : Wiring) (a p : Nat) : Prop := p = (w.ends a).1 ∨ p = (w.ends a).2

/-- Two live ends that point to the rings of their panel, and no other ring pointers. -/
structure Patched (w : Wiring) : Prop where
  ends_ne : ∀ a ∈ w.ppps, (w.ends a).1 ≠ (w.ends a).2
  ends_live : ∀ a ∈ w.ppps, ∀ p, w.Endpoint a p → p ∈ w.ports
  left : ∀ a ∈ w.ppps, w.link (w.ends a).1 = some (some (.leftEnq a), some (.rightEnq a))
  right : ∀ a ∈ w.ppps, w.link (w.ends a).2 = some (some (.rightEnq a), some (.leftEnq a))
  links : ∀ p ∈ w.ports, ∀ tx rx, w.link p = some (tx, rx) →
    (tx = none ∧ rx = none) ∨ ∃ a ∈ w.ppps, w.Endpoint a p

namespace Patched
variable {w w' : Wiring} (h : Patched w)
include h

theorem linked {a p : Nat} (ha : a ∈ w.ppps) (hp : w.Endpoint a p) :
    ∃ tx rx, w.link p = some (some tx, some rx) ∧ tx.ppp = a := by
  rcases hp with rfl | rfl
  · exact ⟨_, _, h.left a ha, rfl⟩
  · exact ⟨_, _, h.right a ha, rfl⟩

/-- A port is an end of one panel at most. -/
theorem endpoint_inj {a b p : Nat} (ha : a ∈ w.ppps) (hb : b ∈ w.ppps) (hpa : w.Endpoint a p)
    (hpb : w.Endpoint b p) : a = b := by
  obtain ⟨tx, rx, hlink, rfl⟩ := h.linked ha hpa
  obtain ⟨tx', rx', hlink', rfl⟩ := h.linked hb hpb
  rw [hlink] at hlink'
  cases hlink'
  rfl

theorem not_endpoint {a p : Nat} (hp : w.link p = some (none, none)) (ha : a ∈ w.ppps) :
    ¬ w.Endpoint a p := by
  intro hend
  obtain ⟨tx, rx, hlink, -⟩ := h.linked ha hend
  rw [hp] at hlink
  cases hlink

theorem addPort {name : String} {link : Option (Option RingRef × Option RingRef)}
    (hatt : Attached w) (hlink : link = none ∨ link = some (none, none)) :
    Patched {w with ports := w.ports ++ [w.next], portName := update w.portName w.next name,
                    owner := update w.owner w.next none, link := update w.link w.next link,
                    next := w.next + 1} := by
  have hne {a p : Nat} (ha : a ∈ w.ppps) (hp : w.Endpoint a p) : p ≠ w.next :=
    Nat.ne_of_lt (hatt.port_lt p (h.ends_live a ha p hp))
  exact
  { h with
    ends_live := fun a ha p hp => List.mem_append_left _ (h.ends_live a ha p hp)
    left := fun a ha => (Function.update_of_ne (hne ha (.inl rfl)) _ _).trans (h.left a ha)
    right := fun a ha => (Function.update_of_ne (hne ha (.inr rfl)) _ _).trans (h.right a ha)
    links := fun p hp tx rx hl => by
      have hl : update w.link w.next link p = some (tx, rx) := hl
      by_cases hnew : p = w.next
      · subst hnew
        rw [Function.update_self] at hl
        rcases hlink with rfl | rfl
        · cases hl
        · cases hl
          exact .inl ⟨rfl, rfl⟩
      · rw [Function.update_of_ne hnew] at hl
        exact h.links p (by simpa [hnew] using hp) tx rx hl }

theorem delPort {p : Nat} (hatt : Attached w) (hfree : ∀ a ∈ w.ppps, ¬ w.Endpoint a p) :
    Patched {w with ports := w.ports.erase p} where
  __ := h
  ends_live := fun a ha q hq => by
    refine hatt.mem_erase_port.mpr ⟨?_, h.ends_live a ha q hq⟩
    rintro rfl
    exact hfree a ha hq
  links := fun q hq => h.links q (List.mem_of_mem_erase hq)

theorem addPpp {name : String} {l r : Nat} (hatt : Attached w) (hl : l ∈ w.ports) (hr : r ∈ w.ports)
    (hll : w.link l = some (none, none)) (hlr : w.link r = some (none, none)) (hne : l ≠ r) :
    Patched {w with ppps := w.ppps ++ [w.next], pppName := update w.pppName w.next name,
                    ends := update w.ends w.next (l, r), link := patchLink w.link w.next l r,
                    next := w.next + 1} := by
  have hold {a : Nat} (ha : a ∈ w.ppps) : update w.ends w.next (l, r) a = w.ends a :=
    Function.update_of_ne (Nat.ne_of_lt (hatt.ppp_lt a ha)) _ _
  have hnew : update w.ends w.next (l, r) w.next = (l, r) := Function.update_self _ _ _
  have hlinkl : patchLink w.link w.next l r l = some (some (.leftEnq w.next), some (.rightEnq w.next)) := by
    rw [patchLink, Function.update_of_ne hne, Function.update_self]
  have hlinkr : patchLink w.link w.next l r r = some (some (.rightEnq w.next), some (.leftEnq w.next)) := by
    rw [patchLink, Function.update_self]
  have hlink {p : Nat} (hpl : p ≠ l) (hpr : p ≠ r) : patchLink w.link w.next l r p = w.link p := by
    rw [patchLink, Function.update_of_ne hpr, Function.update_of_ne hpl]
  -- an end of an older panel is neither of the two ports
  have hends {a p : Nat} (ha : a ∈ w.ppps) (hp : w.Endpoint a p) :
      patchLink w.link w.next l r p = w.link p := by
    refine hlink ?_ ?_
    · rintro rfl
      exact h.not_endpoint hll ha hp
    · rintro rfl
      exact h.not_endpoint hlr ha hp
  have hcases {a : Nat} (ha : a ∈ w.ppps ++ [w.next]) : a ∈ w.ppps ∨ a = w.next := by
    simpa using ha
  exact
  { ends_ne := fun a ha => by
      show (update w.ends w.next (l, r) a).1 ≠ (update w.ends w.next (l, r) a).2
      rcases hcases ha with ha | rfl
      · rw [hold ha]
        exact h.ends_ne a ha
      · rw [hnew]
        exact hne
    ends_live := fun a ha p hp => by
      have hp : p = (update w.ends w.next (l, r) a).1 ∨ p = (update w.ends w.next (l, r) a).2 := hp
      rcases hcases ha with ha | rfl
      · rw [hold ha] at hp
        exact h.ends_live a ha p hp
      · rw [hnew] at hp
        rcases hp with rfl | rfl
        · exact hl
        · exact hr
    left := fun a ha => by
      show patchLink w.link w.next l r (update w.ends w.next (l, r) a).1 = _
      rcases hcases ha with ha | rfl
      · rw [hold ha, hends ha (.inl rfl)]
        exact h.left a ha
      · rw [hnew]
        exact hlinkl
    right := fun a ha => by
      show patchLink w.link w.next l r (update w.ends w.next (l, r) a).2 = _
      rcases hcases ha with ha | rfl
      · rw [hold ha, hends ha (.inr rfl)]
        exact h.right a ha
      · rw [hnew]
        exact hlinkr
    links := fun p hp tx rx hpl => by
      have hpl : patchLink w.link w.next l r p = some (tx, rx) := hpl
      by_cases hend : p = l ∨ p = r
      · refine .inr ⟨w.next, List.mem_append_right _ List.mem_cons_self, ?_⟩
        show p = (update w.ends w.next (l, r) w.next).1 ∨ p = (update w.ends w.next (l, r) w.next).2
        rw [hnew]
        exact hend
      · push Not at hend
        rw [hlink hend.1 hend.2] at hpl
        refine (h.links p hp tx rx hpl).imp_right ?_
        rintro ⟨a, ha, hp⟩
        refine ⟨a, List.mem_append_left _ ha, ?_⟩
        show p = (update w.ends w.next (l, r) a).1 ∨ p = (update w.ends w.next (l, r) a).2
        rw [hold ha]
        exact hp }

theorem delPpp {a : Nat} (hatt : Attached w) (ha : a ∈ w.ppps) :
    Patched {w with ppps := w.ppps.erase a,
                    link := unpatchLink w.link (w.ends a).1 (w.ends a).2} := by
  have hold {b : Nat} (hb : b ∈ w.ppps.erase a) : b ∈ w.ppps ∧ b ≠ a :=
    (hatt.ppp_names.of_map.mem_erase_iff.mp hb).symm
  have hlink {p : Nat} (hp : ¬ w.Endpoint a p) :
      unpatchLink w.link (w.ends a).1 (w.ends a).2 p = w.link p := by
    rw [unpatchLink, Function.update_of_ne fun h => hp (.inr h),
      Function.update_of_ne fun h => hp (.inl h)]
  have hgone {p : Nat} (hp : w.Endpoint a p) :
      unpatchLink w.link (w.ends a).1 (w.ends a).2 p = some (none, none) := by
    unfold unpatchLink
    rcases hp with rfl | rfl
    · by_cases heq : (w.ends a).1 = (w.ends a).2
      · rw [heq, Function.update_self]
      · rw [Function.update_of_ne heq, Function.update_self]
    · exact Function.update_self _ _ _
  have hother {b p : Nat} (hb : b ∈ w.ppps.erase a) (hp : w.Endpoint b p) : ¬ w.Endpoint a p :=
    fun hpa => (hold hb).2 (h.endpoint_inj (hold hb).1 ha hp hpa)
  exact
  { ends_ne := fun b hb => h.ends_ne b (hold hb).1
    ends_live := fun b hb => h.ends_live b (hold hb).1
    left := fun b hb => (hlink (hother hb (.inl rfl))).trans (h.left b (hold hb).1)
    right := fun b hb => (hlink (hother hb (.inr rfl))).trans (h.right b (hold hb).1)
    links := fun p hp tx rx hpl => by
      have hpl : unpatchLink w.link (w.ends a).1 (w.ends a).2 p = some (tx, rx) := hpl
      by_cases hpa : w.Endpoint a p
      · rw [hgone hpa] at hpl
        cases hpl
        exact .inl ⟨rfl, rfl⟩
      · rw [hlink hpa] at hpl
        refine (h.links p hp tx rx hpl).imp_right ?_
        rintro ⟨b, hb, hpb⟩
        refine ⟨b, hatt.ppp_names.of_map.mem_erase_iff.mpr ⟨?_, hb⟩, hpb⟩
        rintro rfl
        exact hpa hpb }

/-- What the rule asks of the ports a request deletes or patches. -/
def patchGuard (w : Wiring) : Guard := ⟨fun p => ∀ a ∈ w.ppps, ¬ w.Endpoint a p, fun l r => l ≠ r⟩

theorem moved (hatt : Attached w) (hm : Moved (patchGuard w) w w') : Patched w' := by
  rcases hm with rfl | hm
  · exact h
  · cases hm with
    | addVnf name nPorts hname => exact ⟨h.ends_ne, h.ends_live, h.left, h.right, h.links⟩
    | delVnf v hv hnull => exact ⟨h.ends_ne, h.ends_live, h.left, h.right, h.links⟩
    | attach v pid p hv hp hempty howner => exact ⟨h.ends_ne, h.ends_live, h.left, h.right, h.links⟩
    | dettach v pid p hv hp hslot => exact ⟨h.ends_ne, h.ends_live, h.left, h.right, h.links⟩
    | addPort name link hname hlink => exact h.addPort hatt hlink
    | delPort p hp howner hg => exact h.delPort hatt hg
    | addPpp name l r hname hl hr hll hlr hg => exact h.addPpp hatt hl hr hll hlr hg
    | delPpp a ha hl hr => exact h.delPpp hatt ha

end Patched

end Susanow.Wiring

namespace Susanow

/-- Two different live ends for every panel, wired to its two rings, and a virt port has
its pointers exactly while it is an end of exactly one panel. -/
structure Nfvi.PanelsWired (n : Nfvi) : Prop where
  ends : ∀ a ∈ n.ppps, (n.ppp a).left ≠ (n.ppp a).right ∧ (n.ppp a).left ∈ n.ports ∧
    (n.ppp a).right ∈ n.ports
  rings : ∀ a ∈ n.ppps,
    (n.port (n.ppp a).left).dev = .virt (some (.leftEnq a)) (some (.rightEnq a)) ∧
      (n.port (n.ppp a).right).dev = .virt (some (.rightEnq a)) (some (.leftEnq a))
  virt : ∀ p ∈ n.ports, ∀ tx rx, (n.port p).dev = .virt tx rx → (tx.isSome ↔ rx.isSome) ∧
    (rx.isSome ↔ ∃! a, a ∈ n.ppps ∧ (p = (n.ppp a).left ∨ p = (n.ppp a).right))

theorem dev_of_link {d : Dev} {tx rx : Option RingRef} (h : d.link = some (tx, rx)) : d = .virt tx rx := by
  cases d <;> cases h
  rfl

theorem Nfvi.panelsWired_of_patched {n : Nfvi} (h : n.wiring.Patched) : n.PanelsWired where
  ends := fun a ha => ⟨h.ends_ne a ha, h.ends_live a ha _ (.inl rfl), h.ends_live a ha _ (.inr rfl)⟩
  rings := fun a ha => ⟨dev_of_link (h.left a ha), dev_of_link (h.right a ha)⟩
  virt := fun p hp tx rx hdev => by
    have hlink := dev_link_virt hdev
    rcases h.links p hp tx rx hlink with ⟨rfl, rfl⟩ | ⟨a, ha, hend⟩
    · refine ⟨Iff.rfl, fun hrx => by simp at hrx, ?_⟩
      rintro ⟨a, ⟨ha, hend⟩, -⟩
      exact absurd hend (h.not_endpoint hlink ha)
    · obtain ⟨tx', rx', hlink', -⟩ := h.linked ha hend
      rw [hlink] at hlink'
      cases hlink'
      refine ⟨by simp, fun _ => ⟨a, ⟨ha, hend⟩, ?_⟩, fun _ => rfl⟩
      rintro b ⟨hb, hend'⟩
      exact h.endpoint_inj hb ha hend' hend

/-- No request patches a port to itself, or deletes an end of a panel: a deletion is let
through if the port is attached (it is refused) or is no end, a new panel if its name is
taken, or its port is patched or no virt port (it is not made), or its ends are two. -/
def patchAllowed (n : Nfvi) : Request → Bool
  | .portDelete pname =>
    match n.findPort pname with
    | none => true
    | some p => (n.port p).isAttachedVnf ||
        n.ppps.all fun a => p ≠ (n.ppp a).left && p ≠ (n.ppp a).right
  | .pppPost name (some right) (some left) _ _ =>
    (n.findPpp name).isSome ||
      match n.findPort left, n.findPort right with
      | some l, some r => l ≠ r || (n.port l).dev ≠ .virt none none
      | _, _ => true
  | _ => true

def patchRule (s : Sys) : Label → Bool
  | .request r => patchAllowed s.nfvi r
  | _ => true

theorem Nfvi.admits_of_patchAllowed {n : Nfvi} {r : Request} (h : patchAllowed n r = true) :
    n.admits (Wiring.Patched.patchGuard n.wiring) r := by
  unfold Nfvi.admits
  split
  · next pname =>
    intro p hp hnone a ha hend
    simp only [patchAllowed, Option.mem_def.mp hp, VnfPort.isAttachedVnf, hnone, Option.isSome_none,
      Bool.false_or, List.all_eq_true] at h
    have hne := h a ha
    simp only [Bool.and_eq_true, decide_eq_true_eq] at hne
    exact hend.elim hne.1 hne.2
  · next name right left alloc mem =>
    rintro hname rightName ⟨⟩ leftName ⟨⟩ l hl r hr hll hlr
    simp only [patchAllowed, hname, Option.isSome_none, Bool.false_or, Option.mem_def.mp hl,
      Option.mem_def.mp hr, dev_of_link hll] at h
    show l ≠ r
    simpa using h
  · trivial

/-- **Panels stay wired** along every run that keeps the rule. -/
theorem panels_wired_of_run {nSocket nLcore : Nat} {catalog : List (String × VnfClass)}
    {ls : List Label} {s : Sys}
    (h : Runs Sys.step (fun s l => patchRule s l = true) (.init nSocket nLcore catalog) ls s) :
    s.nfvi.PanelsWired := by
  have hI : s.nfvi.wiring.Attached ∧ s.nfvi.wiring.Patched := by
    refine h.invariant (I := fun s => s.nfvi.wiring.Attached ∧ s.nfvi.wiring.Patched) ?_ ?_
    · refine ⟨Wiring.attached_init nSocket catalog, ?_⟩
      constructor <;> simp [Sys.init, Nfvi.wiring]
    · intro s l t hI hrule hstep
      have hmoved := Sys.step_moved (Wiring.Patched.patchGuard s.nfvi.wiring)
        (fun r hr => by subst hr; exact Nfvi.admits_of_patchAllowed hrule) hstep
      exact ⟨hI.1.moved hmoved, hI.2.moved hI.1 hmoved⟩
  exact Nfvi.panelsWired_of_patched hI.2

def virtPort (name : String) : Request := .portPost name (some "virt") none (.ok 0)

def panel (name right left : String) : Request :=
  .pppPost name (some right) (some left) (fun _ _ => true) fun _ => (0, 0)

def patchRun : List Label :=
  [.request (virtPort "a"), .request (virtPort "b"), .request (panel "x" "a" "b")]

theorem panels_wired_of_patchRun :
    ∃ s, exec Sys.step (.init 1 4 mainCatalog) patchRun = some s ∧ s.nfvi.PanelsWired := by
  obtain ⟨s, hs⟩ := Option.isSome_iff_exists.mp
    (show (exec Sys.step (.init 1 4 mainCatalog) patchRun).isSome = true by decide +kernel)
  exact ⟨s, hs, panels_wired_of_run (Runs.of_obeys (by decide +kernel) hs)⟩

/-- A panel from port `a` to port `a`; and one whose left end is deleted. -/
theorem panels_not_wired :
    (∃ s, exec Sys.step (.init 1 4 mainCatalog)
        [.request (virtPort "a"), .request (panel "x" "a" "a")] = some s ∧ ¬ s.nfvi.PanelsWired) ∧
      ∃ s, exec Sys.step (.init 1 4 mainCatalog) (patchRun ++ [.request (.portDelete "b")]) = some s ∧
        ¬ s.nfvi.PanelsWired := by
  constructor
  · obtain ⟨s, hs, hf⟩ := Option.map_eq_some_iff.mp
      (show (exec Sys.step (.init 1 4 mainCatalog)
          [.request (virtPort "a"), .request (panel "x" "a" "a")]).map
        (fun s => (s.nfvi.ppps, (s.nfvi.ppp 1).left, (s.nfvi.ppp 1).right)) = some ([1], 0, 0) by
        decide +kernel)
    simp only [Prod.mk.injEq] at hf
    refine ⟨s, hs, fun h => (h.ends 1 (by simp [hf.1])).1 (by rw [hf.2.1, hf.2.2])⟩
  · obtain ⟨s, hs, hf⟩ := Option.map_eq_some_iff.mp
      (show (exec Sys.step (.init 1 4 mainCatalog) (patchRun ++ [.request (.portDelete "b")])).map
        (fun s => (s.nfvi.ppps, (s.nfvi.ppp 2).left, s.nfvi.ports)) = some ([2], 1, [0]) by
        decide +kernel)
    simp only [Prod.mk.injEq] at hf
    refine ⟨s, hs, fun h => absurd (h.ends 2 (by simp [hf.1])).2.1 ?_⟩
    rw [hf.2.1, hf.2.2]
    simp

end Susanow
