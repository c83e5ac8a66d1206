/-
# A text with a cursor

A text is split at the cursor (`Zipper`): what stands before it, the nearest first, and what stands
behind it.  The edits at the cursor are those of an array that holds the text with zeros behind
(`insert_padded`, `erase_padded`).
-/

import AccTx.Series.Text

namespace AccTx
namespace Series

variable {α : Type*}

/-- A text with a cursor in it. -/
structure Zipper (α : Type*) where
  left : List α
  right : List α
  deriving DecidableEq

namespace Zipper

/-- The text, and where the cursor is. -/
def text (z : Zipper α) : List α := z.left.reverse ++ z.right

/-- The cursor at the end of a text. -/
def ofText (t : List α) : Zipper α := ⟨t.reverse, []⟩

def moveLeft : Zipper α → Zipper α
  | ⟨x :: l, r⟩ => ⟨l, x :: r⟩
  | ⟨[], r⟩ => ⟨[], r⟩

def moveRight : Zipper α → Zipper α
  | ⟨l, x :: r⟩ => ⟨x :: l, r⟩
  | ⟨l, []⟩ => ⟨l, []⟩

def insert (x : α) (z : Zipper α) : Zipper α := ⟨x :: z.left, z.right⟩

def erase : Zipper α → Zipper α
  | ⟨_ :: l, r⟩ => ⟨l, r⟩
  | ⟨[], r⟩ => ⟨[], r⟩

variable {z : Zipper α} {t : List α} {x : α}

@[simp] theorem text_ofText : (ofText t).text = t := by simp [text, ofText]

@[simp] theorem left_ofText : (ofText t).left.length = t.length := by simp [ofText]

@[simp] theorem right_ofText : (ofText t).right = [] := rfl

theorem eq_ofText_nil (h : z.text = []) : z = ofText [] := by
  obtain ⟨l, r⟩ := z
  obtain ⟨hl, hr⟩ := List.append_eq_nil_iff.1 h
  obtain rfl : l = [] := List.reverse_eq_nil_iff.1 hl
  obtain rfl : r = [] := hr
  rfl

theorem length_text : z.text.length = z.left.length + z.right.length := by simp [text]

@[simp] theorem text_moveLeft : z.moveLeft.text = z.text := by
  rcases z with ⟨_ | ⟨x, l⟩, r⟩ <;> simp [moveLeft, text]

@[simp] theorem text_moveRight : z.moveRight.text = z.text := by
  rcases z with ⟨l, _ | ⟨x, r⟩⟩ <;> simp [moveRight, text]

@[simp] theorem text_insert : (z.insert x).text = z.left.reverse ++ x :: z.right := by
  simp [insert, text]

theorem length_text_insert : (z.insert x).text.length = z.text.length + 1 := by
  simp only [insert, length_text, List.length_cons]
  omega

theorem mem_text_insert {y : α} : y ∈ (z.insert x).text ↔ y = x ∨ y ∈ z.text := by
  rw [text_insert, text, List.mem_append, List.mem_append, List.mem_cons]
  tauto

theorem text_erase_subset : z.erase.text ⊆ z.text := by
  rcases z with ⟨_ | ⟨x, l⟩, r⟩
  · exact List.Subset.refl _
  · intro y hy
    simp only [erase, text, List.mem_append, List.mem_reverse, List.mem_cons] at hy ⊢
    tauto

theorem length_text_erase_le : z.erase.text.length ≤ z.text.length := by
  rcases z with ⟨_ | ⟨x, l⟩, r⟩
  · exact Nat.le_refl _
  · simp only [erase, length_text, List.length_cons]
    omega

/-! ### In an array -/

variable [Zero α] {n : ℕ}

/-- The character behind the cursor. -/
theorem getElem?_padded {l r : List α} :
    (padded n (text ⟨l, x :: r⟩))[l.length]? = some x := by
  simp [padded, text]

/-- The text from the cursor on. -/
theorem drop_padded_text :
    (padded n z.text).drop z.left.length = padded (n - z.left.length) z.right := by
  have hdrop := @drop_padded _ _ n z.left.reverse z.right
  rwa [List.length_reverse] at hdrop

theorem insert_padded (h : z.text.length < n) (hright : z.right ≠ []) :
    ((memmove (padded n z.text) (z.left.length + 1) z.left.length z.right.length).bind
      fun a => store a z.left.length x) = some (padded n (z.insert x).text) := by
  rw [length_text] at h
  have hinsert := @memmove_insert _ _ n z.left.reverse z.right x
    (by rwa [List.length_reverse]) hright
  rwa [List.length_reverse, ← text, ← text_insert] at hinsert

theorem append_padded (h : z.text.length < n) (hright : z.right = []) :
    store (padded n z.text) z.text.length x = some (padded n (z.insert x).text) := by
  rw [store_padded h, text_insert, text, hright, List.append_nil]

theorem erase_padded {l r : List α} (h : l.length + r.length + 1 ≤ n) :
    ((memmove (padded n (text ⟨x :: l, r⟩)) l.length (l.length + 1) r.length).bind
      fun a => store a (l.length + r.length) 0) = some (padded n (text ⟨l, r⟩)) := by
  have herase := @memmove_delete _ _ n l.reverse r x (by rwa [List.length_reverse])
  rwa [List.length_reverse, show l.reverse ++ x :: r = text ⟨x :: l, r⟩ by simp [text]] at herase

/-- The last character is overwritten. -/
theorem erase_last_padded {l : List α} (h : l.length < n) :
    store (padded n (text ⟨x :: l, []⟩)) l.length 0 = some (padded n (text ⟨l, []⟩)) := by
  have hsub : n - l.length = n - (l.length + 1) + 1 := by omega
  have hpad : padded n (text ⟨x :: l, []⟩) =
      l.reverse ++ x :: List.replicate (n - (l.length + 1)) 0 := by
    simp [padded, text]
  rw [hpad, store_append List.length_reverse, padded, text, List.append_nil, List.length_reverse,
    hsub, List.replicate_succ]

end Zipper
end Series
end AccTx
