import TraceGloss.Source.Highlight

/-
  Lines cut around a span.
  The parts of a span are in lines that it cuts in three (`Cut.around`): the first may start in front of
  the span, the last may end behind it, and the lines between are inside it. Given such lines and the
  columns of the ends, `Highlight.markLines` marks in each the part inside the span, and nothing else
  (`Highlight.markLines_around`).
-/
namespace TraceGloss

/-- A line cut in three: the part of it inside a span and what stands around it. -/
structure Cut where
  front : String
  inside : String
  behind : String

namespace Cut

def line (c : Cut) : String := c.front ++ c.inside ++ c.behind

def marked (mark : String → String) (c : Cut) : String := c.front ++ mark c.inside ++ c.behind

/-- The lines that the parts of a span are in, if the first goes on behind `head` and the last in front
of `tail`. -/
def around (head tail : String) : List String → List Cut
  | [] => []
  | [part] => [⟨head, part, tail⟩]
  | part :: parts => ⟨head, part, ""⟩ :: around "" tail parts

theorem around_cons {parts : List String} (h : parts ≠ []) (head tail part : String) :
    around head tail (part :: parts) = ⟨head, part, ""⟩ :: around "" tail parts := by
  cases parts with
  | nil => exact absurd rfl h
  | cons _ _ => rfl

theorem map_inside_around (head tail : String) (parts : List String) :
    (around head tail parts).map inside = parts := by
  induction parts generalizing head with
  | nil => rfl
  | cons part parts ih =>
    cases parts with
    | nil => rfl
    | cons next parts => rw [around_cons (List.cons_ne_nil _ _), List.map_cons, ih]

theorem map_line_ne_nil {parts : List String} (h : parts ≠ []) (head tail : String) :
    (around head tail parts).map line ≠ [] := by
  intro hnil
  rw [← map_inside_around head tail parts, List.map_eq_nil_iff.mp hnil] at h
  exact h rfl

theorem map_line_around (tail : String) (parts : List String) (last : String) :
    (around "" tail (parts ++ [last])).map line = parts ++ [last ++ tail] := by
  induction parts with
  | nil => simp [around, line]
  | cons part parts ih =>
    have hne := List.concat_ne_nil last parts
    rw [List.cons_append, around_cons hne, List.map_cons, ih]
    simp [line]

end Cut

namespace Highlight

/-- Behind `skip` characters as many are marked as the width says. -/
theorem markLine_some (mark : String → String) {skip : Nat} (head part tail : String)
    (h : head.length = skip) :
    markLine mark skip (some part.length) (Cut.line ⟨head, part, tail⟩) =
      Cut.marked mark ⟨head, part, tail⟩ := by
  have htext : (Cut.line ⟨head, part, tail⟩).toList =
      head.toList ++ (part.toList ++ tail.toList) := by
    rw [Cut.line, String.toList_append, String.toList_append, List.append_assoc]
  unfold markLine
  dsimp only
  rw [htext, ← h, ← String.length_toList, ← String.length_toList, List.take_left, List.drop_left,
    List.take_left, List.drop_left, String.ofList_toList, String.ofList_toList,
    String.ofList_toList, Cut.marked]

/-- Without a width the rest of the line is marked. -/
theorem markLine_none (mark : String → String) {skip : Nat} (head part : String)
    (h : head.length = skip) :
    markLine mark skip none (Cut.line ⟨head, part, ""⟩) = Cut.marked mark ⟨head, part, ""⟩ := by
  have htext : (Cut.line ⟨head, part, ""⟩).toList = head.toList ++ part.toList := by
    rw [Cut.line, String.append_empty, String.toList_append]
  unfold markLine
  dsimp only
  rw [htext, ← h, ← String.length_toList, List.take_left, List.drop_left, String.ofList_toList,
    String.ofList_toList, String.ofList_nil, Cut.marked]

theorem markRest_cons {rest : List String} (h : rest ≠ []) (mark : String → String) (column : Nat)
    (line : String) :
    markRest mark column (line :: rest) = markLine mark 0 none line :: markRest mark column rest := by
  cases rest with
  | nil => exact absurd rfl h
  | cons _ _ => rfl

theorem markLines_cons {rest : List String} (h : rest ≠ []) (mark : String → String)
    (first stop : Nat) (line : String) :
    markLines mark first stop (line :: rest) =
      markLine mark first none line :: markRest mark stop rest := by
  cases rest with
  | nil => exact absurd rfl h
  | cons _ _ => rfl

theorem markRest_around (mark : String → String) (tail : String) (parts : List String)
    (last : String) :
    markRest mark last.length ((Cut.around "" tail (parts ++ [last])).map Cut.line) =
      (Cut.around "" tail (parts ++ [last])).map (Cut.marked mark) := by
  induction parts with
  | nil =>
    show [markLine mark 0 (some last.length) _] = _
    rw [markLine_some mark "" last tail String.length_empty]
    rfl
  | cons part parts ih =>
    have hne := List.concat_ne_nil last parts
    rw [List.cons_append, Cut.around_cons hne, List.map_cons, List.map_cons,
      markRest_cons (Cut.map_line_ne_nil hne _ _), ih,
      markLine_none mark "" part String.length_empty]

/-- The column of the end of the last part, in the line it is in. -/
def stopColumn (head : String) (parts : List String) (last : String) : Nat :=
  if parts = [] then head.length + last.length else last.length

/-- Lines cut around a span, from its first column to its last, are marked in the part inside it. -/
theorem markLines_around (mark : String → String) (head tail : String) (parts : List String)
    (last : String) :
    markLines mark head.length (stopColumn head parts last)
        ((Cut.around head tail (parts ++ [last])).map Cut.line) =
      (Cut.around head tail (parts ++ [last])).map (Cut.marked mark) := by
  cases parts with
  | nil =>
    rw [stopColumn, if_pos rfl]
    show [markLine mark head.length (some (head.length + last.length - head.length)) _] = _
    rw [Nat.add_sub_cancel_left, markLine_some mark head last tail rfl]
    rfl
  | cons part parts =>
    have hne := List.concat_ne_nil last parts
    rw [stopColumn, if_neg (List.cons_ne_nil _ _), List.cons_append, Cut.around_cons hne,
      List.map_cons, List.map_cons,
      markLines_cons (Cut.map_line_ne_nil hne _ _),
      markRest_around, markLine_none mark head part rfl]

/-- A span that ends at the start of a line marks nothing of it. -/
example : markLines (apply false (.delimited "<" ">")) 1 0 ["ab", "cd"] = ["a<b>", "<>cd"] := by
  decide +kernel

end Highlight

end TraceGloss
