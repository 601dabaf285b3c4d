import Mathlib.Data.List.Basic
import Mathlib.Data.List.Perm.Basic

/-!
# Shuffles

One list is a shuffle of another one if swaps of neighbours lead from one to the other, each of two
elements that are free of each other. A run over a list that does not notice these swaps does not
notice the shuffle. Blocks of a list that are free of each other can be put in any order.
-/

namespace PathRules

variable {α β σ : Type}

/-- Equality of lists up to swaps of neighbours that are free of each other. -/
inductive Shuffle (free : α → α → Prop) : List α → List α → Prop
  | refl (l : List α) : Shuffle free l l
  | swap {x y : α} (h : free x y) (l : List α) : Shuffle free (x :: y :: l) (y :: x :: l)
  | cons (x : α) {l l' : List α} (h : Shuffle free l l') : Shuffle free (x :: l) (x :: l')
  | trans {l l' l'' : List α} (h : Shuffle free l l') (h' : Shuffle free l' l'') :
      Shuffle free l l''

namespace Shuffle

variable {free : α → α → Prop} {l l' m m' : List α} {x : α}

theorem perm (h : Shuffle free l l') : l.Perm l' := by
  induction h with
  | refl l => exact List.Perm.refl l
  | swap _ l => exact List.Perm.swap _ _ l
  | cons x _ ih => exact ih.cons x
  | trans _ _ ih ih' => exact ih.trans ih'

theorem append_left (l : List α) (h : Shuffle free m m') : Shuffle free (l ++ m) (l ++ m') := by
  induction l with
  | nil => exact h
  | cons x l ih => exact cons x ih

theorem append_right (h : Shuffle free l l') (m : List α) : Shuffle free (l ++ m) (l' ++ m) := by
  induction h with
  | refl l => exact refl _
  | swap hxy l => exact swap hxy (l ++ m)
  | cons x _ ih => exact cons x ih
  | trans _ _ ih ih' => exact trans ih ih'

theorem append (h : Shuffle free l l') (h' : Shuffle free m m') :
    Shuffle free (l ++ m) (l' ++ m') :=
  trans (append_right h m) (append_left l' h')

/-- An element passes a block that it is free of. -/
theorem cons_append (h : ∀ y ∈ l, free x y) (m : List α) :
    Shuffle free (x :: (l ++ m)) (l ++ x :: m) := by
  induction l with
  | nil => exact refl _
  | cons y l ih =>
      obtain ⟨hy, hl⟩ := List.forall_mem_cons.mp h
      exact trans (swap hy (l ++ m)) (cons y (ih hl))

/-- Two blocks that are free of each other change places. -/
theorem append_comm (h : ∀ x ∈ l, ∀ y ∈ l', free x y) (m : List α) :
    Shuffle free (l ++ (l' ++ m)) (l' ++ (l ++ m)) := by
  induction l with
  | nil => exact refl _
  | cons x l ih =>
      obtain ⟨hx, hl⟩ := List.forall_mem_cons.mp h
      exact trans (cons x (ih hl)) (cons_append hx (l ++ m))

theorem map {free' : β → β → Prop} {f : α → β} (h : Shuffle free l l')
    (hf : ∀ x ∈ l, ∀ y ∈ l, free x y → free' (f x) (f y)) : Shuffle free' (l.map f) (l'.map f) := by
  induction h with
  | refl l => exact refl _
  | @swap x y hxy l => exact swap (hf x (by simp) y (by simp) hxy) (l.map f)
  | cons x _ ih =>
      refine cons (f x) (ih ?_)
      exact fun y hy z hz => hf y (List.mem_cons_of_mem _ hy) z (List.mem_cons_of_mem _ hz)
  | trans h _ ih ih' =>
      refine trans (ih hf) (ih' ?_)
      exact fun x hx y hy => hf x (h.perm.mem_iff.mpr hx) y (h.perm.mem_iff.mpr hy)

theorem filterMap {free' : β → β → Prop} {f : α → Option β} (h : Shuffle free l l')
    (hf : ∀ x y, free x y → ∀ a ∈ f x, ∀ b ∈ f y, free' a b) :
    Shuffle free' (l.filterMap f) (l'.filterMap f) := by
  induction h with
  | refl l => exact refl _
  | @swap x y hxy l =>
      cases hx : f x with
      | none =>
          rw [List.filterMap_cons_none hx, List.filterMap_cons, List.filterMap_cons,
            List.filterMap_cons_none hx]
          exact refl _
      | some a =>
          cases hy : f y with
          | none => simpa [hx, hy] using refl _
          | some b => simpa [hx, hy] using swap (hf x y hxy a hx b hy) (l.filterMap f)
  | cons x _ ih =>
      cases hx : f x with
      | none => simpa [hx] using ih
      | some a => simpa [hx] using cons a ih
  | trans _ _ ih ih' => exact trans ih ih'

theorem flatMap_congr {free' : β → β → Prop} {f g : α → List β}
    (h : ∀ x ∈ l, Shuffle free' (f x) (g x)) : Shuffle free' (l.flatMap f) (l.flatMap g) := by
  induction l with
  | nil => exact refl _
  | cons x l ih =>
      obtain ⟨hx, hl⟩ := List.forall_mem_cons.mp h
      exact append hx (ih hl)

/-- The blocks of distinct elements can be put in any order if they are free of each other. -/
theorem flatMap_of_perm {free' : β → β → Prop} {f : α → List β} (h : l.Perm l') (hl : l.Nodup)
    (hfree : ∀ x ∈ l, ∀ y ∈ l, x ≠ y → ∀ a ∈ f x, ∀ b ∈ f y, free' a b) :
    Shuffle free' (l.flatMap f) (l'.flatMap f) := by
  induction h with
  | nil => exact refl _
  | cons x _ ih =>
      refine append_left (f x) (ih hl.of_cons ?_)
      intro y hy z hz
      exact hfree y (List.mem_cons_of_mem _ hy) z (List.mem_cons_of_mem _ hz)
  | swap x y l =>
      have hne : y ≠ x := by
        rintro rfl
        exact (List.nodup_cons.mp hl).1 List.mem_cons_self
      exact append_comm (hfree y List.mem_cons_self x (by simp) hne) (l.flatMap f)
  | trans h _ ih ih' =>
      refine trans (ih hl hfree) (ih' (h.nodup_iff.mp hl) ?_)
      intro x hx y hy
      exact hfree x (h.mem_iff.mpr hx) y (h.mem_iff.mpr hy)

/-- A run leads related states to related states over a list and its shuffle, if a step does and two
steps do that are free of each other, taken in either order. -/
theorem foldl {R : σ → σ → Prop} {step : σ → α → σ} {s s' : σ} (h : Shuffle free l l')
    (hright : ∀ s s', R s s' → R s' s') (htrans : ∀ s s' s'', R s s' → R s' s'' → R s s'')
    (hstep : ∀ s s', R s s' → ∀ x ∈ l, R (step s x) (step s' x))
    (hswap : ∀ s s', R s s' → ∀ x ∈ l, ∀ y ∈ l, free x y →
      R (step (step s x) y) (step (step s' y) x))
    (hs : R s s') : R (l.foldl step s) (l'.foldl step s') := by
  have hsame : ∀ (l : List α) s s', (∀ s s', R s s' → ∀ x ∈ l, R (step s x) (step s' x)) →
      R s s' → R (l.foldl step s) (l.foldl step s') := by
    intro l
    induction l with
    | nil => exact fun _ _ _ hs => hs
    | cons x l ih =>
        intro s s' hstep hs
        exact ih _ _ (fun s s' hs y hy => hstep s s' hs y (List.mem_cons_of_mem _ hy))
          (hstep s s' hs x List.mem_cons_self)
  induction h generalizing s s' with
  | refl l => exact hsame l s s' hstep hs
  | @swap x y hxy l =>
      apply hsame l
      · intro s s' hs z hz
        exact hstep s s' hs z (by simp [hz])
      · exact hswap s s' hs x (by simp) y (by simp) hxy
  | cons x _ ih =>
      apply ih
      · intro s s' hs y hy
        exact hstep s s' hs y (List.mem_cons_of_mem _ hy)
      · intro s s' hs y hy z hz
        exact hswap s s' hs y (List.mem_cons_of_mem _ hy) z (List.mem_cons_of_mem _ hz)
      · exact hstep s s' hs x List.mem_cons_self
  | trans h _ ih ih' =>
      refine htrans _ _ _ (ih hstep hswap hs) (ih' ?_ ?_ (hright s s' hs))
      · intro s s' hs x hx
        exact hstep s s' hs x (h.perm.mem_iff.mpr hx)
      · intro s s' hs x hx y hy
        exact hswap s s' hs x (h.perm.mem_iff.mpr hx) y (h.perm.mem_iff.mpr hy)

end Shuffle

end PathRules
