import Mathlib

/-!
# Voila.Lib.Layout

Fields at positions of a text. `s.drop pos = f ++ post` says that `f` stands at `pos`, and each field
gives where the next one stands (`drop_field`), so that a text laid out in fields is read from one end to
the other without an equation for each position.
-/

namespace Voila.Lib

variable {α : Type*}

variable {pos : Nat} {c : α}

/-- What follows a field stands behind it. -/
theorem drop_field {s f post : List α} (h : s.drop pos = f ++ post) :
    s.drop (pos + f.length) = post := by
  rw [← List.drop_drop, h, List.drop_left]

theorem drop_succ {s post : List α} (h : s.drop pos = c :: post) : s.drop (pos + 1) = post :=
  drop_field (f := [c]) h

theorem take_field {s f post : List α} {pos n : Nat} (h : s.drop pos = f ++ post) (width : f.length = n) :
    (s.drop pos).take n = f := by
  rw [h, ← width, List.take_left]

theorem get_field {s post : List α} (h : s.drop pos = c :: post) : s[pos]? = some c := by
  rw [← List.head?_drop, h]
  rfl

/-- A field is within the text. -/
theorem field_fits {s f post : List α} (h : s.drop pos = f ++ post) :
    s.length - pos = f.length + post.length := by
  have length := congrArg List.length h
  rwa [List.length_drop, List.length_append] at length

end Voila.Lib
