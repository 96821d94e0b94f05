import Mathlib.Data.List.Basic

/-!
# Computations that leave a trace

A computation emits events one after another and ends with a value or with a
fault, which cuts off all that would have followed. The rules say what a bind
has emitted and when it returns, so that a property of all events, or of the
value returned, is shown part by part.
-/

set_option autoImplicit false

universe u

structure Traced (E F α : Type u) where
  events : List E
  result : Except F α

namespace Traced

variable {E F α β : Type u}

protected def pure (a : α) : Traced E F α := ⟨[], .ok a⟩

protected def bind (x : Traced E F α) (f : α → Traced E F β) : Traced E F β :=
  match x.result with
  | .ok a => ⟨x.events ++ (f a).events, (f a).result⟩
  | .error e => ⟨x.events, .error e⟩

instance : Monad (Traced E F) where
  pure := Traced.pure
  bind := Traced.bind

def emit (e : E) : Traced E F PUnit := ⟨[e], .ok ⟨⟩⟩

def fault (e : F) : Traced E F α := ⟨[], .error e⟩

@[simp] theorem pure_events (a : α) : (pure a : Traced E F α).events = [] := rfl

@[simp] theorem pure_result (a : α) : (pure a : Traced E F α).result = .ok a := rfl

@[simp] theorem emit_events (e : E) : (emit e : Traced E F PUnit).events = [e] := rfl

@[simp] theorem emit_result (e : E) : (emit e : Traced E F PUnit).result = .ok ⟨⟩ := rfl

@[simp] theorem fault_events (e : F) : (fault e : Traced E F α).events = [] := rfl

@[simp] theorem fault_result (e : F) : (fault e : Traced E F α).result = .error e := rfl

theorem bind_of_ok {x : Traced E F α} {a : α} (h : x.result = .ok a) (f : α → Traced E F β) :
    x >>= f = ⟨x.events ++ (f a).events, (f a).result⟩ := by
  show Traced.bind x f = _
  simp only [Traced.bind, h]

theorem bind_of_error {x : Traced E F α} {e : F} (h : x.result = .error e)
    (f : α → Traced E F β) : x >>= f = ⟨x.events, .error e⟩ := by
  show Traced.bind x f = _
  simp only [Traced.bind, h]

theorem id_map_eq (x : Traced E F α) : id <$> x = x := by
  obtain ⟨events, result⟩ := x
  cases result with
  | ok a => exact congrArg (Traced.mk · (.ok a)) (List.append_nil events)
  | error e => rfl

theorem bind_assoc_eq {γ : Type u} (x : Traced E F α) (f : α → Traced E F β)
    (g : β → Traced E F γ) : x >>= f >>= g = x >>= fun a => f a >>= g := by
  obtain ⟨events, result⟩ := x
  cases result with
  | error e => rfl
  | ok a =>
    have hx : ∀ {δ : Type u} (k : α → Traced E F δ),
        (⟨events, .ok a⟩ : Traced E F α) >>= k = ⟨events ++ (k a).events, (k a).result⟩ :=
      fun k => bind_of_ok rfl k
    rw [hx, hx]
    cases hfa : (f a).result with
    | error e => simp [bind_of_error hfa, bind_of_error]
    | ok b => simp [bind_of_ok hfa, bind_of_ok, List.append_assoc]

instance : LawfulMonad (Traced E F) :=
  LawfulMonad.mk' (Traced E F) id_map_eq (fun _ _ => rfl) bind_assoc_eq

@[simp] theorem fault_bind (e : F) (f : α → Traced E F β) : fault e >>= f = fault e := rfl

@[simp] theorem map_events (f : α → β) (x : Traced E F α) : (f <$> x).events = x.events := by
  rw [← bind_pure_comp]
  cases h : x.result with
  | ok a => simp [bind_of_ok h]
  | error e => simp [bind_of_error h]

@[simp] theorem map_result {f : α → β} {x : Traced E F α} {b : β} :
    (f <$> x).result = .ok b ↔ ∃ a, x.result = .ok a ∧ f a = b := by
  rw [← bind_pure_comp]
  cases h : x.result with
  | ok a => simp [bind_of_ok h]
  | error e => simp [bind_of_error h]

theorem bind_result {x : Traced E F α} {f : α → Traced E F β} {b : β} :
    (x >>= f).result = .ok b ↔ ∃ a, x.result = .ok a ∧ (f a).result = .ok b := by
  cases h : x.result with
  | ok a => simp [bind_of_ok h]
  | error e => simp [bind_of_error h]

theorem mem_bind {x : Traced E F α} {f : α → Traced E F β} {e : E} :
    e ∈ (x >>= f).events ↔ e ∈ x.events ∨ ∃ a, x.result = .ok a ∧ e ∈ (f a).events := by
  cases h : x.result with
  | ok a => simp [bind_of_ok h]
  | error e' => simp [bind_of_error h]

theorem bind_tail {x : Traced E F α} {f : α → Traced E F β} {b : β} {e : E}
    (hb : (x >>= f).result = .ok b) (he : e ∈ (x >>= f).events) (hx : e ∉ x.events) :
    ∃ a, e ∈ (f a).events ∧ (f a).result = .ok b := by
  obtain ⟨a, ha, hfa⟩ := bind_result.mp hb
  rcases mem_bind.mp he with hstart | ⟨a', ha', hrest⟩
  · exact absurd hstart hx
  · rw [ha] at ha'
    obtain rfl := Except.ok.inj ha'
    exact ⟨a, hrest, hfa⟩

def Holds (P : E → Prop) (x : Traced E F α) : Prop := ∀ e ∈ x.events, P e

section Holds

variable {P : E → Prop}

@[simp] theorem holds_pure (a : α) : Holds P (pure a : Traced E F α) := by
  intro e he
  cases he

@[simp] theorem holds_fault (e : F) : Holds P (fault e : Traced E F α) := by
  intro e' he
  cases he

@[simp] theorem holds_emit (e : E) : Holds P (emit e : Traced E F PUnit) ↔ P e := by
  simp [Holds]

@[simp] theorem holds_map (f : α → β) (x : Traced E F α) : Holds P (f <$> x) ↔ Holds P x := by
  simp [Holds]

@[simp] theorem holds_bind {x : Traced E F α} {f : α → Traced E F β} :
    Holds P (x >>= f) ↔ Holds P x ∧ ∀ a, x.result = .ok a → Holds P (f a) := by
  simp only [Holds, mem_bind]
  constructor
  · intro h
    exact ⟨fun e he => h e (Or.inl he), fun a ha e he => h e (Or.inr ⟨a, ha, he⟩)⟩
  · rintro ⟨hx, hf⟩ e (he | ⟨a, ha, he⟩)
    · exact hx e he
    · exact hf a ha e he

end Holds

section Views

variable {D : Type u}

/-- The trace of the events that `g` keeps. -/
def view (g : E → Option D) (x : Traced E F α) : Traced D F α := ⟨x.events.filterMap g, x.result⟩

@[simp] theorem view_result (g : E → Option D) (x : Traced E F α) :
    (view g x).result = x.result := rfl

theorem view_bind (g : E → Option D) (x : Traced E F α) (f : α → Traced E F β) :
    view g (x >>= f) = view g x >>= fun a => view g (f a) := by
  cases h : x.result with
  | ok a =>
    have hview : (view g x).result = .ok a := h
    rw [bind_of_ok h, bind_of_ok hview]
    simp only [view, List.filterMap_append]
  | error e =>
    have hview : (view g x).result = .error e := h
    rw [bind_of_error h, bind_of_error hview]
    rfl

theorem view_map (g : E → Option D) (f : α → β) (x : Traced E F α) :
    view g (f <$> x) = f <$> view g x := by
  rw [← bind_pure_comp, ← bind_pure_comp, view_bind]
  rfl

def among (x : Traced E F α) : Traced (E ⊕ D) F α := ⟨x.events.map .inl, x.result⟩

def left : Traced (E ⊕ D) F α → Traced E F α := view Sum.getLeft?

def right : Traced (E ⊕ D) F α → Traced D F α := view Sum.getRight?

@[simp] theorem left_among (x : Traced E F α) : left (among x : Traced (E ⊕ D) F α) = x := by
  obtain ⟨events, result⟩ := x
  simp [left, view, among, List.filterMap_map, Function.comp_def]

@[simp] theorem right_among (x : Traced E F α) :
    right (among x : Traced (E ⊕ D) F α) = ⟨[], x.result⟩ := by
  simp [right, view, among, List.filterMap_map, Function.comp_def]

@[simp] theorem left_bind (x : Traced (E ⊕ D) F α) (f : α → Traced (E ⊕ D) F β) :
    left (x >>= f) = left x >>= fun a => left (f a) := view_bind _ x f

@[simp] theorem right_bind (x : Traced (E ⊕ D) F α) (f : α → Traced (E ⊕ D) F β) :
    right (x >>= f) = right x >>= fun a => right (f a) := view_bind _ x f

@[simp] theorem left_map (f : α → β) (x : Traced (E ⊕ D) F α) : left (f <$> x) = f <$> left x :=
  view_map _ f x

@[simp] theorem left_pure (a : α) : left (pure a : Traced (E ⊕ D) F α) = pure a := rfl

@[simp] theorem left_note (d : D) : left (emit (.inr d) : Traced (E ⊕ D) F PUnit) = pure ⟨⟩ := rfl

end Views

end Traced
