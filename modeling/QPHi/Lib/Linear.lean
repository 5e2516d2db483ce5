import Mathlib.Logic.Function.Basic

/-! Linearizability: what many threads see of an object is what they would see if each of their calls took effect at one
    moment between the call and its return. -/

namespace Linear

/-- What can be seen of the operations of an object. -/
inductive Action (T Op R : Type) where
  | call (t : T) (op : Op)
  | ret (t : T) (r : R)
deriving DecidableEq, Repr

/-- A history with the moments at which the operations take effect. -/
inductive Mark (T Op R : Type) where
  | action (a : Action T Op R)
  | effect (t : T) (op : Op) (r : R)
deriving DecidableEq, Repr

variable {T Op R S σ : Type}

def Mark.thread : Mark T Op R → T
  | .action (.call t _) => t
  | .action (.ret t _) => t
  | .effect t _ _ => t

def Mark.action? : Mark T Op R → Option (Action T Op R)
  | .action a => some a
  | .effect _ _ _ => none

def Mark.effect? : Mark T Op R → Option (T × Op × R)
  | .action _ => none
  | .effect t op r => some (t, op, r)

/-- A sequential object. An operation that has to wait has no result yet. -/
structure Object (T Op R S : Type) where
  init : S
  apply : T → Op → S → R → S → Prop

/-- Operations that are made one after the other. -/
inductive Legal (obj : Object T Op R S) : List (T × Op × R) → S → Prop
  | nil : Legal obj [] obj.init
  | snoc {ops : List (T × Op × R)} {x x' : S} {t : T} {op : Op} {r : R} (h : Legal obj ops x) (happ : obj.apply t op x r x') :
      Legal obj (ops ++ [(t, op, r)]) x'

/-- Where a thread is in an operation. -/
inductive Status (Op R : Type) where
  | idle
  | called (op : Op)
  | done (r : R)

/-- The operations of the thread `t` follow each other: each is called, takes effect and returns what the effect said. -/
inductive Orderly (t : T) : List (Mark T Op R) → Status Op R → Prop
  | nil : Orderly t [] .idle
  | call {ms : List (Mark T Op R)} {op : Op} (h : Orderly t ms .idle) : Orderly t (ms ++ [.action (.call t op)]) (.called op)
  | effect {ms : List (Mark T Op R)} {op : Op} {r : R} (h : Orderly t ms (.called op)) :
      Orderly t (ms ++ [.effect t op r]) (.done r)
  | ret {ms : List (Mark T Op R)} {r : R} (h : Orderly t ms (.done r)) : Orderly t (ms ++ [.action (.ret t r)]) .idle
  | other {ms : List (Mark T Op R)} {m : Mark T Op R} {st : Status Op R} (h : Orderly t ms st) (hm : m.thread ≠ t) :
      Orderly t (ms ++ [m]) st

/-- Effects can be put into the history so that they are a run of the sequential object. -/
def Linearizable (obj : Object T Op R S) (h : List (Action T Op R)) : Prop :=
  ∃ ms : List (Mark T Op R), ms.filterMap Mark.action? = h ∧ (∃ x, Legal obj (ms.filterMap Mark.effect?) x) ∧
    ∀ t, ∃ st, Orderly t ms st

/-! ### The atomic object -/

/-- The object and where its threads are. -/
structure Atomic (T Op R S : Type) where
  object : S
  status : T → Status Op R

section
variable [DecidableEq T] {obj : Object T Op R S} {a b c : Atomic T Op R S} {ms ms' : List (Mark T Op R)}
  {t : T} {op : Op} {r : R} {x : S}

/-- The thread `u` goes on, and the others are where they were. -/
theorem Orderly.update {status : T → Status Op R} {m : Mark T Op R} {u : T} {st : Status Op R} (h : Orderly t ms (status t))
    (hm : m.thread = u) (hu : t = u → Orderly t (ms ++ [m]) st) : Orderly t (ms ++ [m]) (Function.update status u st t) := by
  by_cases heq : t = u
  · rw [heq, Function.update_self, ← heq]
    exact hu heq
  · rw [Function.update_of_ne heq]
    exact h.other fun h => heq (h.symm.trans hm)

/-- The threads go on, with the marks `ms`. -/
inductive Goes (obj : Object T Op R S) (a : Atomic T Op R S) : List (Mark T Op R) → Atomic T Op R S → Prop
  | refl : Goes obj a [] a
  | call {ms : List (Mark T Op R)} {b : Atomic T Op R S} {t : T} {op : Op} (h : Goes obj a ms b) (hst : b.status t = .idle) :
      Goes obj a (ms ++ [.action (.call t op)]) ⟨b.object, Function.update b.status t (.called op)⟩
  | effect {ms : List (Mark T Op R)} {b : Atomic T Op R S} {t : T} {op : Op} {r : R} {x : S} (h : Goes obj a ms b)
      (hst : b.status t = .called op) (happ : obj.apply t op b.object r x) :
      Goes obj a (ms ++ [.effect t op r]) ⟨x, Function.update b.status t (.done r)⟩
  | ret {ms : List (Mark T Op R)} {b : Atomic T Op R S} {t : T} {r : R} (h : Goes obj a ms b) (hst : b.status t = .done r) :
      Goes obj a (ms ++ [.action (.ret t r)]) ⟨b.object, Function.update b.status t .idle⟩

namespace Goes

theorem trans (h : Goes obj a ms b) (h' : Goes obj b ms' c) : Goes obj a (ms ++ ms') c := by
  induction h' with
  | refl =>
    rw [List.append_nil]
    exact h
  | call _ hst ih =>
    rw [← List.append_assoc]
    exact ih.call hst
  | effect _ hst happ ih =>
    rw [← List.append_assoc]
    exact ih.effect hst happ
  | ret _ hst ih =>
    rw [← List.append_assoc]
    exact ih.ret hst

/-- An operation takes effect as it returns. -/
theorem effect_ret (hst : a.status t = .called op) (happ : obj.apply t op a.object r x) :
    Goes obj a [.effect t op r, .action (.ret t r)] ⟨x, Function.update a.status t .idle⟩ := by
  have h := (Goes.refl.effect hst happ).ret (Function.update_self t (Status.done r) a.status)
  rw [Function.update_idem] at h
  exact h

theorem legal (h : Goes obj ⟨obj.init, fun _ => .idle⟩ ms b) : Legal obj (ms.filterMap Mark.effect?) b.object := by
  induction h with
  | refl => exact .nil
  | call _ _ ih =>
    rw [List.filterMap_append]
    exact (List.append_nil _).symm ▸ ih
  | effect _ _ happ ih =>
    rw [List.filterMap_append]
    exact ih.snoc happ
  | ret _ _ ih =>
    rw [List.filterMap_append]
    exact (List.append_nil _).symm ▸ ih

theorem orderly (h : Goes obj ⟨obj.init, fun _ => .idle⟩ ms b) (t : T) : Orderly t ms (b.status t) := by
  induction h with
  | refl => exact .nil
  | call _ hst ih =>
    refine ih.update rfl ?_
    rintro rfl
    exact (hst ▸ ih).call
  | effect _ hst _ ih =>
    refine ih.update rfl ?_
    rintro rfl
    exact (hst ▸ ih).effect
  | ret _ hst ih =>
    refine ih.update rfl ?_
    rintro rfl
    exact (hst ▸ ih).ret

end Goes

/-! ### Simulation -/

/-- The runs of a system of which the actions are seen. -/
inductive Run (init : σ → Prop) (step : σ → Option (Action T Op R) → σ → Prop) : List (Action T Op R) → σ → Prop
  | start {s : σ} (h : init s) : Run init step [] s
  | tail {h : List (Action T Op R)} {s s' : σ} {e : Option (Action T Op R)} (run : Run init step h s) (hs : step s e s') :
      Run init step (h ++ e.toList) s'

/-- Each step of the system is answered by the atomic object, which is seen to do the same. -/
theorem Run.linearizable {init : σ → Prop} {step : σ → Option (Action T Op R) → σ → Prop} {h : List (Action T Op R)}
    {s : σ} (Sim : σ → Atomic T Op R S → Prop) (hinit : ∀ s, init s → Sim s ⟨obj.init, fun _ => .idle⟩)
    (hstep : ∀ {s e s' a}, Sim s a → step s e s' →
      ∃ ms b, Goes obj a ms b ∧ ms.filterMap Mark.action? = e.toList ∧ Sim s' b)
    (run : Run init step h s) : Linearizable obj h := by
  have hsim : ∃ ms a, Goes obj ⟨obj.init, fun _ => .idle⟩ ms a ∧ ms.filterMap Mark.action? = h ∧ Sim s a := by
    induction run with
    | start h₀ => exact ⟨[], _, .refl, rfl, hinit _ h₀⟩
    | tail _ hs ih =>
      obtain ⟨ms, a, hgoes, hms, hsim⟩ := ih
      obtain ⟨ms', b, hgoes', hms', hsim'⟩ := hstep hsim hs
      refine ⟨ms ++ ms', b, hgoes.trans hgoes', ?_, hsim'⟩
      rw [List.filterMap_append, hms, hms']
  obtain ⟨ms, a, hgoes, hms, -⟩ := hsim
  exact ⟨ms, hms, ⟨a.object, hgoes.legal⟩, fun t => ⟨a.status t, hgoes.orderly t⟩⟩

end

end Linear
