import Mathlib.Data.List.Induction
import Mathlib.Data.String.Basic
import Mathlib.Order.Bounds.Basic
import TraceGloss.Proofs.Text.Lines

/-
  Byte offsets and positions.
  A byte offset cuts off the characters of a text that begin before it (`front`). The cut stands at the
  first place between two characters that is not before the offset (`roundsUp_front`), and the position
  of the offset is the one behind what is cut off (`locate_eq`): it counts the lines of that part and
  the characters of its last line (`behind_eq`).
-/
namespace TraceGloss

/-- The first place between two characters of a text that is not before a byte offset, in bytes; for
an offset behind the text its end. -/
def RoundsUp (content : String) (offset place : Nat) : Prop :=
  IsLeast {k | String.Pos.Raw.IsValid content ⟨k⟩ ∧ min offset content.utf8ByteSize ≤ k} place

/-- The position behind a text that starts a file. -/
def Position.behind (text : String) : Position := text.toList.foldl Position.advance .start

namespace Text

/-- The characters of a text that begin before a byte offset. -/
def before : Nat → List Char → List Char
  | 0, _ => []
  | _ + 1, [] => []
  | offset + 1, c :: rest => c :: before (offset + 1 - c.utf8Size) rest

theorem prefix_before (offset : Nat) (text : List Char) : before offset text <+: text := by
  induction text generalizing offset with
  | nil => cases offset <;> exact List.nil_prefix
  | cons c text ih =>
    cases offset with
    | zero => exact List.nil_prefix
    | succ offset => exact (List.prefix_cons_inj c).mpr (ih _)

theorem min_le_utf8Len_before (offset : Nat) (text : List Char) :
    min offset (String.utf8Len text) ≤ String.utf8Len (before offset text) := by
  induction text generalizing offset with
  | nil => exact Nat.le_trans (Nat.min_le_right _ _) (Nat.zero_le _)
  | cons c text ih =>
    cases offset with
    | zero => exact Nat.le_trans (Nat.min_le_left _ _) (Nat.zero_le _)
    | succ offset =>
      have hrest := ih (offset + 1 - c.utf8Size)
      rw [before, String.utf8Len_cons, String.utf8Len_cons]
      omega

/-- A beginning that reaches the offset, or the end of the text, holds every character that begins
before the offset. -/
theorem prefix_of_min_le {offset : Nat} {init text : List Char} (hinit : init <+: text)
    (h : min offset (String.utf8Len text) ≤ String.utf8Len init) : before offset text <+: init := by
  induction text generalizing offset init with
  | nil =>
    rw [List.prefix_nil.mp hinit]
    exact prefix_before offset []
  | cons c text ih =>
    cases offset with
    | zero => exact List.nil_prefix
    | succ offset =>
      have hsize := c.utf8Size_pos
      rw [String.utf8Len_cons] at h
      cases init with
      | nil =>
        rw [String.utf8Len_nil] at h
        omega
      | cons d init =>
        obtain ⟨rfl, htail⟩ := List.cons_prefix_cons.mp hinit
        rw [String.utf8Len_cons] at h
        exact (List.prefix_cons_inj d).mpr (ih htail (by omega))

/-- A later offset cuts no earlier. -/
theorem prefix_before_before {m n : Nat} (h : m ≤ n) (text : List Char) :
    before m text <+: before n text := by
  refine prefix_of_min_le (prefix_before n text) ?_
  have := min_le_utf8Len_before n text
  omega

theorem locateFrom_eq_foldl (p : Position) (offset : Nat) (text : List Char) :
    locateFrom p offset text = (before offset text).foldl Position.advance p := by
  induction text generalizing p offset with
  | nil => cases offset <;> rfl
  | cons c text ih =>
    cases offset with
    | zero => rfl
    | succ offset => exact ih _ _

/-- The part of a text that a byte offset cuts off. -/
def front (offset : Nat) (content : String) : String :=
  String.ofList (before offset content.toList)

theorem toList_front (offset : Nat) (content : String) :
    (front offset content).toList = before offset content.toList :=
  String.toList_ofList

theorem exists_eq_front_append (offset : Nat) (content : String) :
    ∃ back, content = front offset content ++ back := by
  obtain ⟨back, hback⟩ := prefix_before offset content.toList
  refine ⟨String.ofList back, ?_⟩
  rw [front, ← String.ofList_append, hback, String.ofList_toList]

theorem exists_front_eq_append {m n : Nat} (h : m ≤ n) (content : String) :
    ∃ span, front n content = front m content ++ span := by
  obtain ⟨span, hspan⟩ := prefix_before_before h content.toList
  exact ⟨String.ofList span, by rw [front, front, ← String.ofList_append, hspan]⟩

/-- The cut stands at the first place between two characters that is not before the offset. -/
theorem roundsUp_front (offset : Nat) (content : String) :
    RoundsUp content offset (front offset content).utf8ByteSize := by
  have hsize (s : String) : s.utf8ByteSize = String.utf8Len s.toList := by
    rw [← String.utf8ByteSize_ofList, String.ofList_toList]
  refine ⟨⟨?_, ?_⟩, ?_⟩
  · obtain ⟨back, hback⟩ := exists_eq_front_append offset content
    exact String.Pos.Raw.isValid_iff_exists_append.mpr ⟨front offset content, back, hback, rfl⟩
  · rw [hsize, hsize, toList_front]
    exact min_le_utf8Len_before _ _
  · rintro k ⟨hvalid, hk⟩
    obtain ⟨init, rest, hcontent, hplace⟩ := String.Pos.Raw.isValid_iff_exists_append.mp hvalid
    have hk' : k = String.utf8Len init.toList := by
      rw [← hsize]
      exact congrArg String.Pos.Raw.byteIdx hplace
    have hinit : init.toList <+: content.toList := by
      rw [hcontent, String.toList_append]
      exact List.prefix_append _ _
    rw [hk', hsize] at hk
    rw [hk', hsize, toList_front]
    exact String.utf8Len_le_of_prefix (prefix_of_min_le hinit hk)

/-- Behind a text stands its last line, at the column of that line's length. -/
theorem exists_lines_foldl_advance (text : List Char) :
    ∃ init last, lines text = init ++ [last] ∧
      text.foldl Position.advance .start = ⟨init.length + 1, last.length⟩ := by
  induction text using List.reverseRecOn with
  | nil => exact ⟨[], [], rfl, rfl⟩
  | append_singleton text c ih =>
    obtain ⟨init, last, hlines, hposition⟩ := ih
    rw [List.foldl_append, hposition, List.foldl_cons, List.foldl_nil, Position.advance]
    by_cases hc : c = '\n'
    · have hc' : lines [c] = [] :: [[]] := by rw [hc, lines_newline]; rfl
      refine ⟨init ++ [last], [], ?_, ?_⟩
      · rw [lines_append hlines hc', List.append_nil, List.append_assoc]
        rfl
      · rw [if_pos hc, List.length_append]
        rfl
    · have hc' : lines [c] = [c] :: [] := lines_cons hc rfl
      refine ⟨init, last ++ [c], lines_append hlines hc', ?_⟩
      rw [if_neg hc, List.length_append]
      rfl

/-- The position behind a text counts its lines and the characters of the last one. -/
theorem behind_eq {text : String} {init : List String} {last : String}
    (h : splitLines text = init ++ [last]) :
    Position.behind text = ⟨init.length + 1, last.length⟩ := by
  obtain ⟨init', last', hlines, hposition⟩ := exists_lines_foldl_advance text.toList
  rw [lines_toList, h, List.map_append] at hlines
  obtain ⟨hinit, hlast⟩ := List.append_inj' hlines rfl
  rw [Position.behind, hposition, ← hinit, List.length_map, ← List.singleton_inj.mp hlast,
    String.length_toList]

/-- The position of a byte offset is the one behind what it cuts off. -/
theorem locate_eq (offset : Nat) (content : String) :
    locate content.toList offset = Position.behind (front offset content) := by
  rw [locate, locateFrom_eq_foldl, Position.behind, toList_front]

end Text

end TraceGloss
