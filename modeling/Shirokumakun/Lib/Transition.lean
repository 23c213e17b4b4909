/-
Machines that take one step at a time.

A machine is a start state and a partial step function: `none` says that the
action is not enabled.  The step function is the whole definition, so the guards a
proof uses are the guards a replay of a concrete run uses, and a run that shows a
defect can simply be executed.

Two readings of "in every run" are needed.  `Reach C` is the set of states reached
by runs whose steps all met `C`, a condition on the state before the step and the
action; invariants are proved along it.  `Always` and `Obeys` walk one given list
of actions instead, and `always_iff_obeys` is how a condition is shown to be exact
rather than merely sufficient.
-/
import Mathlib.Logic.Basic
import Mathlib.Tactic.TypeStar

namespace Transition

/-- A start state and a partial step function. -/
structure Machine (σ α : Type*) where
  init : σ
  step : σ → α → Option σ

namespace Machine

variable {σ α : Type*} (m : Machine σ α)

/-- Execute a list of actions; `none` if one of them is not enabled in its turn. -/
def run : σ → List α → Option σ
  | s, [] => some s
  | s, a :: rest => (m.step s a).bind fun s' => run s' rest

@[simp] theorem run_nil (s : σ) : m.run s [] = some s := rfl

@[simp] theorem run_cons (s : σ) (a : α) (rest : List α) :
    m.run s (a :: rest) = (m.step s a).bind fun s' => m.run s' rest := rfl

theorem run_cons_of_step {s s' : σ} {a : α} (h : m.step s a = some s') (rest : List α) :
    m.run s (a :: rest) = m.run s' rest := by
  rw [run_cons, h]
  rfl

theorem run_append (s : σ) (as bs : List α) :
    m.run s (as ++ bs) = (m.run s as).bind fun t => m.run t bs := by
  induction as generalizing s with
  | nil => rfl
  | cons a rest ih =>
      rw [List.cons_append, run_cons, run_cons]
      cases m.step s a with
      | none => rfl
      | some s' => exact ih s'

theorem run_append_of_run {s t : σ} {as : List α} (h : m.run s as = some t) (bs : List α) :
    m.run s (as ++ bs) = m.run t bs := by
  rw [run_append, h]
  rfl

/-- A run of a component is a run of the whole, if the whole takes the component's steps:
`get` and `set` are the component, `act` is its step as a step of the whole, and `P` says
which of its steps are taken. -/
theorem run_component {τ β : Type*} {n : Machine τ β} (get : σ → τ) (set : σ → τ → σ) (act : β → α)
    {P : β → Prop} (hget : ∀ s t, get (set s t) = t) (hset : ∀ s t u, set (set s t) u = set s u)
    (hself : ∀ s, set s (get s) = s)
    (hstep : ∀ s b t, P b → n.step (get s) b = some t → m.step s (act b) = some (set s t))
    {bs : List β} : ∀ {s : σ} {t : τ}, (∀ b ∈ bs, P b) → n.run (get s) bs = some t →
      m.run s (bs.map act) = some (set s t) := by
  induction bs with
  | nil =>
      intro s t _ hrun
      rw [run_nil, Option.some.injEq] at hrun
      rw [List.map_nil, run_nil, ← hrun, hself]
  | cons b rest ih =>
      intro s t hP hrun
      obtain ⟨t', hb, hrest⟩ := Option.bind_eq_some_iff.mp hrun
      have hwhole := hstep s b t' (hP b List.mem_cons_self) hb
      rw [List.map_cons, run_cons_of_step _ hwhole]
      rw [← hget s t'] at hrest
      have hrun' := ih (fun c hc => hP c (List.mem_cons_of_mem b hc)) hrest
      rw [hset] at hrun'
      exact hrun'

/-! ### States reached under a condition -/

/-- Reached from the start by steps that each met `C`. -/
inductive Reach (C : σ → α → Prop) : σ → Prop
  | init : Reach C m.init
  | step {s s' : σ} {a : α} (h : Reach C s) (hC : C s a) (hs : m.step s a = some s') :
      Reach C s'

/-- Reached by any run at all. -/
abbrev Reachable : σ → Prop := m.Reach fun _ _ => True

variable {m} {C : σ → α → Prop}

/-- **The invariant rule.**  What holds at the start and survives every step that meets
the condition holds wherever such steps lead. -/
theorem Reach.invariant {I : σ → Prop} (hinit : I m.init)
    (hstep : ∀ s a s', I s → C s a → m.step s a = some s' → I s')
    {s : σ} (h : m.Reach C s) : I s := by
  induction h with
  | init => exact hinit
  | step _ hC hs ih => exact hstep _ _ _ ih hC hs

/-- The same rule when an invariant already established may be used in the step. -/
theorem Reach.invariant_from {J I : σ → Prop} (hJ : ∀ s, m.Reach C s → J s) (hinit : I m.init)
    (hstep : ∀ s a s', J s → I s → C s a → m.step s a = some s' → I s')
    {s : σ} (h : m.Reach C s) : I s := by
  induction h with
  | init => exact hinit
  | step hr hC hs ih => exact hstep _ _ _ (hJ _ hr) ih hC hs

/-- Running on from a reached state with actions that meet the condition anywhere. -/
theorem Reach.run {s t : σ} (h : m.Reach C s) {as : List α} (hC : ∀ a ∈ as, ∀ u, C u a)
    (hrun : m.run s as = some t) : m.Reach C t := by
  induction as generalizing s with
  | nil =>
      rw [run_nil, Option.some.injEq] at hrun
      exact hrun ▸ h
  | cons a rest ih =>
      obtain ⟨s', hs, hrest⟩ := Option.bind_eq_some_iff.mp hrun
      have hs' : m.Reach C s' := Reach.step h (hC a List.mem_cons_self s) hs
      exact ih hs' (fun b hb => hC b (List.mem_cons_of_mem a hb)) hrest

theorem Reachable.run {s t : σ} (h : m.Reachable s) {as : List α}
    (hrun : m.run s as = some t) : m.Reachable t :=
  Reach.run h (fun _ _ _ => trivial) hrun

/-- A weaker condition reaches no less. -/
theorem Reach.mono {D : σ → α → Prop} {s : σ} (h : m.Reach C s) (hCD : ∀ s a, C s a → D s a) :
    m.Reach D s := by
  induction h with
  | init => exact Reach.init
  | step _ hC hs ih => exact Reach.step ih (hCD _ _ hC) hs

/-- A replay from the start ends in a reachable state. -/
theorem reachable_of_run {t : σ} {as : List α} (hrun : m.run m.init as = some t) :
    m.Reachable t :=
  Reachable.run Reach.init hrun

/-- **Forward simulation.**  If every step either leaves the abstraction alone or is one
step of the abstract machine that meets the abstract condition, the abstraction of a
reached state is reached. -/
theorem Reach.simulate {τ β : Type*} {n : Machine τ β} {E : τ → β → Prop} {J : σ → Prop}
    (abs : σ → τ) (hJ : ∀ s, m.Reach C s → J s) (hinit : abs m.init = n.init)
    (hstep : ∀ s a s', J s → C s a → m.step s a = some s' →
      abs s' = abs s ∨ ∃ b, E (abs s) b ∧ n.step (abs s) b = some (abs s'))
    {s : σ} (h : m.Reach C s) : n.Reach E (abs s) := by
  induction h with
  | init => exact hinit ▸ Reach.init
  | step hr hC hs ih =>
      rcases hstep _ _ _ (hJ _ hr) hC hs with heq | ⟨b, hE, hb⟩
      · exact heq ▸ ih
      · exact Reach.step ih hE hb

/-- **The progress rule.**  If, as long as the invariant holds and the goal is not reached,
some action of a kind can be taken that brings a measure down, then actions of that kind
lead to the goal. -/
theorem exists_run_to {I G : σ → Prop} {P : α → Prop} (load : σ → Nat)
    (hstep : ∀ s a s', I s → P a → m.step s a = some s' → I s')
    (hprogress : ∀ s, I s → ¬ G s → ∃ a s', P a ∧ m.step s a = some s' ∧ load s' < load s)
    (s : σ) (hs : I s) : ∃ as t, (∀ a ∈ as, P a) ∧ m.run s as = some t ∧ G t := by
  by_cases hG : G s
  · exact ⟨[], s, by simp, rfl, hG⟩
  · obtain ⟨a, s', ha, hs', hless⟩ := hprogress s hs hG
    obtain ⟨as, t, has, hrun, ht⟩ :=
      exists_run_to load hstep hprogress s' (hstep s a s' hs ha hs')
    refine ⟨a :: as, t, ?_, ?_, ht⟩
    · intro b hb
      rcases List.mem_cons.mp hb with rfl | hb
      · exact ha
      · exact has b hb
    · rw [run_cons_of_step _ hs', hrun]
termination_by load s

/-! ### One given run -/

variable (m)

/-- Every state the run passes through satisfies `P`. -/
def Always (P : σ → Prop) : σ → List α → Prop
  | s, [] => P s
  | s, a :: rest => P s ∧ ∀ s', m.step s a = some s' → Always P s' rest

/-- Every step the run takes met `C` in the state before it. -/
def Obeys (C : σ → α → Prop) : σ → List α → Prop
  | _, [] => True
  | s, a :: rest => ∀ s', m.step s a = some s' → C s a ∧ Obeys C s' rest

variable {m}

theorem Always.head {P : σ → Prop} {s : σ} {as : List α} (h : m.Always P s as) : P s := by
  cases as with
  | nil => exact h
  | cons a rest => exact h.1

/-- **When a condition is exact.**  Suppose that, as long as the side invariant `K` and the
property `P` hold, a step keeps `P` precisely when it meets `C`, and then keeps `K` too.
Then a run has `P` throughout if and only if all its steps meet `C`. -/
theorem always_iff_obeys {P K : σ → Prop}
    (hexact : ∀ s a s', K s → P s → m.step s a = some s' → (C s a ↔ P s'))
    (hK : ∀ s a s', K s → P s → C s a → m.step s a = some s' → K s') :
    ∀ (as : List α) (s : σ), K s → P s → (m.Always P s as ↔ m.Obeys C s as) := by
  intro as
  induction as with
  | nil => intro s _ hP; exact ⟨fun _ => trivial, fun _ => hP⟩
  | cons a rest ih =>
      intro s hKs hPs
      constructor
      · rintro ⟨-, hrest⟩ s' hs
        have hP' : P s' := (hrest s' hs).head
        have hC : C s a := (hexact s a s' hKs hPs hs).mpr hP'
        exact ⟨hC, (ih s' (hK s a s' hKs hPs hC hs) hP').mp (hrest s' hs)⟩
      · intro h
        refine ⟨hPs, ?_⟩
        intro s' hs
        obtain ⟨hC, hrest⟩ := h s' hs
        have hP' : P s' := (hexact s a s' hKs hPs hs).mp hC
        exact (ih s' (hK s a s' hKs hPs hC hs) hP').mpr hrest

/-- Under the same assumptions, what is reached under the condition has the property, and
the side invariant with it. -/
theorem Reach.of_exact {P K : σ → Prop}
    (hexact : ∀ s a s', K s → P s → m.step s a = some s' → (C s a ↔ P s'))
    (hK : ∀ s a s', K s → P s → C s a → m.step s a = some s' → K s')
    (hKinit : K m.init) (hPinit : P m.init) {s : σ} (h : m.Reach C s) : K s ∧ P s := by
  refine Reach.invariant (I := fun s => K s ∧ P s) ⟨hKinit, hPinit⟩ ?_ h
  intro s a s' hI hC hs
  exact ⟨hK s a s' hI.1 hI.2 hC hs, (hexact s a s' hI.1 hI.2 hs).mp hC⟩

/-- **Both readings of an exact condition** at once. -/
theorem exact_condition {P K : σ → Prop}
    (hexact : ∀ s a s', K s → P s → m.step s a = some s' → (C s a ↔ P s'))
    (hK : ∀ s a s', K s → P s → C s a → m.step s a = some s' → K s')
    (hKinit : K m.init) (hPinit : P m.init) (as : List α) :
    (∀ s, m.Reach C s → P s) ∧ (m.Always P m.init as ↔ m.Obeys C m.init as) := by
  refine ⟨?_, always_iff_obeys hexact hK as m.init hKinit hPinit⟩
  intro s h
  exact (h.of_exact hexact hK hKinit hPinit).2

end Machine

end Transition
