import Mathlib.Logic.Relation
import Mathlib.Tactic.Choose

/-!
# Transition systems

Steps that may show an event, the behaviours that a state has, and simulations.  A
simulation here goes backward along a transformation: whatever the new system does, the
old one can do as well, with at least as many steps, so that also what runs forever is
matched.
-/

namespace L2.Transition

variable {State State' State'' Event Outcome : Type}

/-- Steps that show nothing. -/
def Silent (step : State → Option Event → State → Prop) : State → State → Prop :=
  Relation.ReflTransGen (step · none ·)

/-- A step with silent steps around it. -/
def Moves (step : State → Option Event → State → Prop) (s : State) (event : Option Event)
    (t : State) : Prop :=
  ∃ a b, Silent step s a ∧ step a event b ∧ Silent step b t

/-- A run with the events that it shows. -/
inductive Runs (step : State → Option Event → State → Prop) : State → List Event → State → Prop
  | nil (s : State) : Runs step s [] s
  | cons {s m t : State} {event : Option Event} {trace : List Event} :
    Moves step s event m → Runs step m trace t → Runs step s (event.toList ++ trace) t

section

variable {step : State → Option Event → State → Prop}

theorem Moves.of_step {s t : State} {event : Option Event} (h : step s event t) :
    Moves step s event t :=
  ⟨s, t, .refl, h, .refl⟩

theorem Moves.silent {s t : State} (h : Moves step s none t) : Silent step s t := by
  obtain ⟨a, b, hsa, hab, hbt⟩ := h
  exact (hsa.tail hab).trans hbt

theorem Silent.moves {s m t : State} {event : Option Event} (h : Silent step s m)
    (h' : Moves step m event t) : Moves step s event t := by
  obtain ⟨a, b, hma, hab, hbt⟩ := h'
  exact ⟨a, b, h.trans hma, hab, hbt⟩

theorem Moves.trans_silent {s m t : State} {event : Option Event} (h : Moves step s event m)
    (h' : Silent step m t) : Moves step s event t := by
  obtain ⟨a, b, hsa, hab, hbm⟩ := h
  exact ⟨a, b, hsa, hab, hbm.trans h'⟩

/-- A silent step in front of a move. -/
theorem Moves.head {s m t : State} {event : Option Event} (h : step s none m)
    (h' : Moves step m event t) : Moves step s event t :=
  Silent.moves (.single h) h'

end

/-! ## Behaviours -/

variable (step : State → Option Event → State → Prop) (outcome : State → Option Outcome)
variable (step' : State' → Option Event → State' → Prop) (outcome' : State' → Option Outcome)

/-- The state can end with an outcome after it has shown a trace. -/
def Terminates (s : State) (trace : List Event) (o : Outcome) : Prop :=
  ∃ t, Runs step s trace t ∧ outcome t = some o

/-- The state can move forever. -/
def Forever (s : State) (events : Nat → Option Event) : Prop :=
  ∃ g : Nat → State, g 0 = s ∧ ∀ n, Moves step (g n) (events n) (g (n + 1))

/-- Everything that `s'` may do `s` may do as well. -/
structure Refines (s : State) (s' : State') : Prop where
  terminates : ∀ trace o, Terminates step' outcome' s' trace o → Terminates step outcome s trace o
  forever : ∀ events, Forever step' s' events → Forever step s events

/-- A relation along which the states on the left follow those on the right. -/
structure Simulation (R : State → State' → Prop) : Prop where
  matches_step : ∀ {s s' event t'}, R s s' → step' s' event t' →
    ∃ t, Moves step s event t ∧ R t t'
  matches_outcome : ∀ {s s' o}, R s s' → outcome' s' = some o →
    ∃ t, Silent step s t ∧ outcome t = some o

namespace Simulation

variable {step outcome step' outcome'}
variable {R : State → State' → Prop}

theorem silent (h : Simulation step outcome step' outcome' R) {s : State} {s' t' : State'}
    (hr : R s s') (hs : Silent step' s' t') : ∃ t, Silent step s t ∧ R t t' := by
  induction hs with
  | refl => exact ⟨s, .refl, hr⟩
  | tail _ hlast ih =>
    obtain ⟨m, hm, hrm⟩ := ih
    obtain ⟨t, ht, hrt⟩ := h.matches_step hrm hlast
    exact ⟨t, hm.trans ht.silent, hrt⟩

theorem moves (h : Simulation step outcome step' outcome' R) {s : State} {s' t' : State'}
    {event : Option Event} (hr : R s s') (hm : Moves step' s' event t') :
    ∃ t, Moves step s event t ∧ R t t' := by
  obtain ⟨a', b', hsa, hab, hbt⟩ := hm
  obtain ⟨a, ha, hra⟩ := h.silent hr hsa
  obtain ⟨b, hb, hrb⟩ := h.matches_step hra hab
  obtain ⟨t, ht, hrt⟩ := h.silent hrb hbt
  exact ⟨t, (ha.moves hb).trans_silent ht, hrt⟩

theorem runs (h : Simulation step outcome step' outcome' R) {s : State} {s' t' : State'}
    {trace : List Event} (hr : R s s') (hruns : Runs step' s' trace t') :
    ∃ t, Runs step s trace t ∧ R t t' := by
  induction hruns generalizing s with
  | nil => exact ⟨s, .nil s, hr⟩
  | cons hm _ ih =>
    obtain ⟨m, hsm, hrm⟩ := h.moves hr hm
    obtain ⟨t, hmt, hrt⟩ := ih hrm
    exact ⟨t, .cons hsm hmt, hrt⟩

end Simulation

variable {step outcome step' outcome'}

/-- Silent steps at the end of a run. -/
theorem Runs.trans_silent {s m t : State} {trace : List Event} (h : Runs step s trace m)
    (h' : Silent step m t) : Runs step s trace t := by
  induction h with
  | nil =>
    rcases h'.cases_head with rfl | ⟨c, hc, hct⟩
    · exact .nil _
    · exact .cons ⟨_, c, .refl, hc, hct⟩ (.nil t)
  | cons hm _ ih => exact .cons hm (ih h')

/-- The rule for simulations: the right refines the left. -/
theorem Simulation.refines {R : State → State' → Prop}
    (h : Simulation step outcome step' outcome' R) {s : State} {s' : State'} (hr : R s s') :
    Refines step outcome step' outcome' s s' where
  terminates := by
    rintro trace o ⟨t', hruns, houtcome⟩
    obtain ⟨m, hsm, hrm⟩ := h.runs hr hruns
    obtain ⟨t, hmt, ht⟩ := h.matches_outcome hrm houtcome
    exact ⟨t, hsm.trans_silent hmt, ht⟩
  forever := by
    rintro events ⟨g', rfl, hg'⟩
    -- the run on the left is chosen move by move, together with its relation to the right
    have hnext : ∀ n (a : { a : State // R a (g' n) }),
        ∃ b : { b : State // R b (g' (n + 1)) }, Moves step a.val (events n) b.val := by
      intro n a
      obtain ⟨b, hab, hb⟩ := h.moves a.property (hg' n)
      exact ⟨⟨b, hb⟩, hab⟩
    choose next hmoves using hnext
    let g : (n : Nat) → { a : State // R a (g' n) } := fun n => Nat.rec ⟨s, hr⟩ next n
    exact ⟨fun n => (g n).val, rfl, fun n => hmoves n (g n)⟩

theorem Refines.trans {step'' : State'' → Option Event → State'' → Prop}
    {outcome'' : State'' → Option Outcome} {s : State} {s' : State'} {s'' : State''}
    (h : Refines step outcome step' outcome' s s')
    (h' : Refines step' outcome' step'' outcome'' s' s'') :
    Refines step outcome step'' outcome'' s s'' :=
  ⟨fun trace o ht => h.terminates trace o (h'.terminates trace o ht),
    fun events hf => h.forever events (h'.forever events hf)⟩

end L2.Transition
