/-
# Frames of a stream

A reader collects what it is given until `ends` says that the frame is complete, and begins the
next one (`collect`).  The frames of a stream and the part left over are the whole stream
(`flatten_frames`), and each of them ends where `ends` first holds (`IsFrame`).  A stream put
together from frames is taken apart into them again (`frames_flatten`).

A frame may have a body whose end the header decides (`headed`): the header is what comes to the
first end of the one kind, and the body is complete when `done` says so.
-/

import AccTx.Effect.Mealy
import Mathlib.Data.List.Infix
import Mathlib.Data.List.ReduceOption

namespace AccTx
namespace Series

open Effect

variable {α : Type} {ends : List α → Bool} {part f : List α}

/-- The part of a frame after one element more. -/
def collect (ends : List α → Bool) (part : List α) (x : α) : List α :=
  if ends (part ++ [x]) then [] else part ++ [x]

/-- The frame that the element completes. -/
def complete (ends : List α → Bool) (part : List α) (x : α) : Option (List α) :=
  if ends (part ++ [x]) then some (part ++ [x]) else none

/-- The frames of a stream behind a part of one. -/
def frames (ends : List α → Bool) (part xs : List α) : List (List α) :=
  (outputs (collect ends) (complete ends) part xs).reduceOption

/-- What is left over behind the frames. -/
def leftOver (ends : List α → Bool) (part xs : List α) : List α := xs.foldl (collect ends) part

/-- No beginning of a part is a frame. -/
def IsPart (ends : List α → Bool) (part : List α) : Prop :=
  ∀ p, p <+: part → p ≠ [] → ends p = false

/-- A frame: it ends here, and not before. -/
structure IsFrame (ends : List α → Bool) (f : List α) : Prop where
  nonempty : f ≠ []
  complete : ends f = true
  part : IsPart ends f.dropLast

theorem isPart_nil : IsPart ends [] := fun _ hp hne => absurd (List.prefix_nil.1 hp) hne

theorem isFrame_of (hne : f ≠ []) (hends : ends f = true)
    (hfirst : ∀ p, p <+: f → p ≠ f → p ≠ [] → ends p = false) : IsFrame ends f := by
  refine ⟨hne, hends, fun p hp hpne => hfirst p (hp.trans (List.dropLast_prefix f)) ?_ hpne⟩
  rintro rfl
  have hlen := hp.length_le
  have hpos := List.length_pos_iff.2 hne
  rw [List.length_dropLast] at hlen
  omega

theorem IsFrame.part_of (h : IsFrame ends f) {p : List α} (hp : p <+: f) (hne : p ≠ f) :
    IsPart ends p := by
  have hsplit := List.dropLast_append_getLast h.nonempty
  rw [← hsplit, List.prefix_concat_iff, hsplit] at hp
  exact fun q hq => h.part q (hq.trans (hp.resolve_left hne))

theorem frames_nil : frames ends part [] = [] := rfl

theorem frames_cons (x : α) (xs : List α) :
    frames ends part (x :: xs) =
      (complete ends part x).toList ++ frames ends (collect ends part x) xs := by
  unfold frames
  rw [outputs]
  cases complete ends part x with
  | none => rw [List.reduceOption_cons_of_none]; rfl
  | some g => rw [List.reduceOption_cons_of_some]; rfl

/-- Each frame is made into something. -/
theorem frames_map {β : Type} (g : List α → β) (xs : List α) :
    (outputs (collect ends) (fun part x => (complete ends part x).map g) part xs).reduceOption =
      (frames ends part xs).map g := by
  induction xs generalizing part with
  | nil => rfl
  | cons x xs ih =>
    rw [frames_cons, outputs, List.map_append, ← ih]
    cases complete ends part x <;> rfl

theorem leftOver_cons (x : α) (xs : List α) :
    leftOver ends part (x :: xs) = leftOver ends (collect ends part x) xs := rfl

theorem frames_append (xs ys : List α) :
    frames ends part (xs ++ ys) =
      frames ends part xs ++ frames ends (leftOver ends part xs) ys := by
  rw [frames, outputs_append, List.reduceOption_append]
  rfl

theorem leftOver_append (xs ys : List α) :
    leftOver ends part (xs ++ ys) = leftOver ends (leftOver ends part xs) ys := List.foldl_append

theorem collect_complete (x : α) :
    ((complete ends part x).toList.flatten) ++ collect ends part x = part ++ [x] := by
  unfold complete collect
  split <;> simp

/-- **Nothing is lost.** -/
theorem flatten_frames (xs : List α) :
    (frames ends part xs).flatten ++ leftOver ends part xs = part ++ xs := by
  induction xs generalizing part with
  | nil => rw [frames_nil, List.flatten_nil, List.nil_append, List.append_nil]; rfl
  | cons x xs ih =>
    rw [frames_cons, List.flatten_append, List.append_assoc, leftOver_cons, ih,
      ← List.append_assoc, collect_complete, List.append_assoc, List.singleton_append]

theorem IsPart.concat {x : α} (h : IsPart ends part) (hx : ends (part ++ [x]) = false) :
    IsPart ends (part ++ [x]) := by
  intro p hp hne
  rcases List.prefix_concat_iff.1 hp with rfl | hp
  · exact hx
  · exact h p hp hne

theorem IsPart.collect (h : IsPart ends part) (x : α) : IsPart ends (collect ends part x) := by
  unfold Series.collect
  split
  · exact isPart_nil
  · rename_i hx
    exact h.concat (Bool.not_eq_true _ ▸ hx)

theorem IsPart.complete (h : IsPart ends part) {x : α} (hf : complete ends part x = some f) :
    IsFrame ends f := by
  unfold Series.complete at hf
  split at hf
  · rename_i hx
    obtain rfl := Option.some_inj.1 hf
    exact ⟨by simp, hx, by rwa [List.dropLast_concat]⟩
  · cases hf

/-- **Each frame ends where it first can.** -/
theorem isFrame_frames (h : IsPart ends part) (xs : List α) :
    (∀ f ∈ frames ends part xs, IsFrame ends f) ∧ IsPart ends (leftOver ends part xs) := by
  induction xs generalizing part with
  | nil => exact ⟨fun _ hf => absurd hf (List.not_mem_nil), h⟩
  | cons x xs ih =>
    obtain ⟨hframes, hrest⟩ := ih (h.collect x)
    refine ⟨fun f hf => ?_, hrest⟩
    rw [frames_cons, List.mem_append, Option.mem_toList] at hf
    rcases hf with hf | hf
    · exact h.complete hf
    · exact hframes f hf

/-- A part of a frame is collected. -/
theorem frames_part (h : IsPart ends part) :
    frames ends [] part = [] ∧ leftOver ends [] part = part := by
  induction part using List.reverseRecOn with
  | nil => exact ⟨rfl, rfl⟩
  | append_singleton part x ih =>
    have hpart : IsPart ends part := fun p hp => h p (hp.trans (List.prefix_append ..))
    have hx : ends (part ++ [x]) = false := h _ List.prefix_rfl (by simp)
    obtain ⟨hframes, hleft⟩ := ih hpart
    constructor
    · rw [frames_append, hframes, hleft, frames_cons, complete, hx]
      rfl
    · rw [leftOver_append, hleft, leftOver_cons, collect, hx]
      rfl

theorem frames_frame (h : IsFrame ends f) : frames ends [] f = [f] ∧ leftOver ends [] f = [] := by
  obtain ⟨hframes, hleft⟩ := frames_part h.part
  have hsplit := List.dropLast_append_getLast h.nonempty
  have hends := h.complete
  rw [← hsplit] at hends
  constructor
  · conv_lhs => rw [← hsplit]
    rw [frames_append, hframes, hleft, frames_cons, complete, if_pos hends, hsplit]
    rfl
  · conv_lhs => rw [← hsplit]
    rw [leftOver_append, hleft, leftOver_cons, collect, if_pos hends]
    rfl

/-- **A stream of frames is taken apart into them**, and the reader goes on behind them. -/
theorem frames_flatten {fs : List (List α)} (h : ∀ f ∈ fs, IsFrame ends f) (xs : List α) :
    frames ends [] (fs.flatten ++ xs) = fs ++ frames ends [] xs ∧
      leftOver ends [] (fs.flatten ++ xs) = leftOver ends [] xs := by
  induction fs with
  | nil => exact ⟨rfl, rfl⟩
  | cons f fs ih =>
    obtain ⟨hframes, hleft⟩ := frames_frame (h f (List.mem_cons_self ..))
    obtain ⟨hrest, hend⟩ := ih fun g hg => h g (List.mem_cons_of_mem _ hg)
    rw [List.flatten_cons, List.append_assoc, frames_append, hframes, hleft, hrest,
      List.singleton_append, leftOver_append, hleft, hend, List.cons_append]
    exact ⟨rfl, rfl⟩

/-! ### Headers and bodies -/

section Headed

variable {done : List α → List α → Bool} {header body : List α}

/-- The header of a part of a frame, if it is complete, and what there is of the body. -/
def splitHeader (ends : List α → Bool) (part : List α) : Option (List α × List α) :=
  match frames ends [] part with
  | [] => none
  | header :: _ => some (header, part.drop header.length)

/-- A frame with a header, whose body is complete when `done header body`. -/
def headed (ends : List α → Bool) (done : List α → List α → Bool) (part : List α) : Bool :=
  match splitHeader ends part with
  | none => false
  | some (header, body) => done header body

theorem splitHeader_part (h : IsPart ends part) : splitHeader ends part = none := by
  rw [splitHeader, (frames_part h).1]

theorem splitHeader_frame (h : IsFrame ends header) :
    splitHeader ends (header ++ body) = some (header, body) := by
  have hframes := (frames_frame h).1
  rw [splitHeader, frames_append, hframes, List.singleton_append]
  simp

/-- A part is one of a header, or has a header. -/
theorem splitHeader_cases (ends : List α → Bool) (part : List α) :
    (IsPart ends part ∧ splitHeader ends part = none) ∨
      ∃ header body, part = header ++ body ∧ IsFrame ends header ∧
        splitHeader ends part = some (header, body) := by
  obtain ⟨hframes, hleft⟩ := isFrame_frames (@isPart_nil _ ends) part
  have hall := @flatten_frames _ ends [] part
  cases hfs : frames ends [] part with
  | nil =>
    rw [hfs, List.flatten_nil, List.nil_append, List.nil_append] at hall
    rw [hall] at hleft
    exact Or.inl ⟨hleft, splitHeader_part hleft⟩
  | cons header fs =>
    rw [hfs, List.flatten_cons, List.append_assoc, List.nil_append] at hall
    have hheader : IsFrame ends header := hframes header (by rw [hfs]; exact List.mem_cons_self ..)
    refine Or.inr ⟨header, fs.flatten ++ leftOver ends [] part, hall.symm, hheader, ?_⟩
    conv_lhs => rw [← hall]
    exact splitHeader_frame hheader

theorem headed_append (h : IsFrame ends header) :
    headed ends done (header ++ body) = done header body := by
  rw [headed, splitHeader_frame h]

/-- **A frame is a header and the body it asks for.** -/
theorem IsFrame.headed (h : IsFrame ends header) (hdone : done header body = true)
    (hbody : ∀ b, b <+: body → b ≠ body → done header b = false) :
    IsFrame (headed ends done) (header ++ body) := by
  refine isFrame_of ?_ (by rw [headed_append h, hdone]) fun p hp hne _ => ?_
  · exact fun hnil => h.nonempty (List.append_eq_nil_iff.1 hnil).1
  · have hbehind : header <+: p → Series.headed ends done p = false := by
      rintro ⟨b, rfl⟩
      rw [headed_append h]
      exact hbody b ((List.prefix_append_right_inj header).1 hp) fun heq => hne (heq ▸ rfl)
    rcases List.prefix_or_prefix_of_prefix hp (List.prefix_append header body) with hpre | hpre
    · rcases eq_or_ne p header with rfl | hph
      · exact hbehind List.prefix_rfl
      · rw [Series.headed, splitHeader_part (h.part_of hpre hph)]
    · exact hbehind hpre

end Headed

end Series
end AccTx
