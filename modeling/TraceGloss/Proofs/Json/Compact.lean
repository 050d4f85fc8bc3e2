import TraceGloss.Json.Reading
import TraceGloss.Proofs.Json.Lexemes

/-
  Compact text is read back.
  A value `fits` if all its numbers are natural ones below `2 ^ 64`, it has no faults, and its nesting
  leaves it readable. Reading the compact text of such a value leaves off behind it, with the value
  finished (`scanFrom_compact`), so the whole text denotes the value (`denotes_compact`). The proof
  follows the value; what stands between items and between members is one lemma each.
-/
namespace TraceGloss.Json

mutual

/-- Whether the compact text of the value denotes it, with `room` for nesting: it has no faults and no
other numbers than natural ones below `2 ^ 64`. -/
def fits (room : Nat) : Json → Bool
  | .natural n => n < UInt64.size
  | .array items => 0 < room && fitsItems (room - 1) items
  | .object members ending => 0 < room && fitsMembers (room - 1) members && ending.isNone
  | .decimal _ | .fault _ => false
  | _ => true

def fitsItems (room : Nat) : List Json → Bool
  | [] => true
  | item :: rest => fits room item && fitsItems room rest

def fitsMembers (room : Nat) : List (String × Json) → Bool
  | [] => true
  | (_, value) :: rest => fits room value && fitsMembers room rest

end

theorem fitsItems_eq_all (room : Nat) (items : List Json) :
    fitsItems room items = items.all (fits room) := by
  induction items with
  | nil => rfl
  | cons item rest ih => rw [fitsItems, ih, List.all_cons]

theorem fitsMembers_eq_all (room : Nat) (members : List (String × Json)) :
    fitsMembers room members = members.all fun m => fits room m.2 := by
  induction members with
  | nil => rfl
  | cons m rest ih => rw [fitsMembers, ih, List.all_cons]

theorem fits_array {room : Nat} {items : List Json} (h : ∀ item ∈ items, fits room item = true) :
    fits (room + 1) (.array items) = true := by
  rw [fits, fitsItems_eq_all, Nat.add_sub_cancel, List.all_eq_true.mpr h, Bool.and_true,
    decide_eq_true_eq]
  exact Nat.succ_pos room

theorem fits_record {room : Nat} {members : List (String × Json)}
    (h : ∀ m ∈ members, fits room m.2 = true) : fits (room + 1) (record members) = true := by
  unfold record
  rw [fits, fitsMembers_eq_all, Nat.add_sub_cancel, List.all_eq_true.mpr h, Bool.and_true,
    Option.isNone_none, Bool.and_true, decide_eq_true_eq]
  exact Nat.succ_pos room

mutual

/-- A value that fits has no fault. -/
theorem readable_of_fits (value : Json) (room : Nat) (h : fits room value = true) :
    value.readable = true := by
  match value with
  | .null | .bool _ | .natural _ | .string _ => rfl
  | .decimal _ | .fault _ => cases h
  | .array items =>
    rw [fits, Bool.and_eq_true] at h
    rw [readable]
    exact readableItems_of_fits items (room - 1) h.2
  | .object members ending =>
    rw [fits, Bool.and_eq_true, Bool.and_eq_true] at h
    rw [readable, readableMembers_of_fits members (room - 1) h.1.2, h.2]
    rfl

theorem readableItems_of_fits (items : List Json) (room : Nat)
    (h : fitsItems room items = true) : readableItems items = true := by
  match items with
  | [] => rfl
  | item :: rest =>
    rw [fitsItems, Bool.and_eq_true] at h
    rw [readableItems, readable_of_fits item room h.1, readableItems_of_fits rest room h.2]
    rfl

theorem readableMembers_of_fits (members : List (String × Json)) (room : Nat)
    (h : fitsMembers room members = true) : readableMembers members = true := by
  match members with
  | [] => rfl
  | (_, value) :: rest =>
    rw [fitsMembers, Bool.and_eq_true] at h
    rw [readableMembers, readable_of_fits value room h.1, readableMembers_of_fits rest room h.2]
    rfl

end

/-! ## Texts -/

/-- Items behind the first one. -/
def itemsBehind (items : List Json) : List Char :=
  items.flatMap fun item => ',' :: item.compact.toList

/-- A key with its colon. -/
def keyText (key : String) : List Char := (quote key).toList ++ [':']

/-- Members behind the first one. -/
def membersBehind (members : List (String × Json)) : List Char :=
  members.flatMap fun m => ',' :: (keyText m.1 ++ m.2.compact.toList)

theorem toList_intercalate_cons (first : String) (rest : List String) :
    (",".intercalate (first :: rest)).toList =
      first.toList ++ rest.flatMap fun text => ',' :: text.toList := by
  induction rest generalizing first with
  | nil => rw [String.intercalate_singleton, List.flatMap_nil, List.append_nil]
  | cons next rest ih =>
    rw [String.intercalate_cons_cons, String.toList_append, String.toList_append, ih,
      List.flatMap_cons, List.append_assoc]
    rfl

theorem itemsBehind_cons (item : Json) (rest : List Json) :
    itemsBehind (item :: rest) = ',' :: (item.compact.toList ++ itemsBehind rest) :=
  List.flatMap_cons

theorem membersBehind_cons (key : String) (value : Json) (rest : List (String × Json)) :
    membersBehind ((key, value) :: rest) =
      ',' :: (keyText key ++ (value.compact.toList ++ membersBehind rest)) := by
  rw [membersBehind, List.flatMap_cons, List.cons_append, List.append_assoc]
  rfl

theorem flatMap_compactItems (items : List Json) :
    ((compactItems items).flatMap fun text => ',' :: text.toList) = itemsBehind items := by
  induction items with
  | nil => rfl
  | cons item rest ih =>
    rw [compactItems, List.flatMap_cons, ih, itemsBehind_cons]
    rfl

theorem flatMap_compactMembers (members : List (String × Json)) :
    ((compactMembers members).flatMap fun text => ',' :: text.toList) = membersBehind members := by
  induction members with
  | nil => rfl
  | cons m rest ih =>
    rw [compactMembers, List.flatMap_cons, ih, String.toList_append, String.toList_append,
      membersBehind_cons, ← List.append_assoc (keyText m.1)]
    rfl

theorem toList_compact_array (item : Json) (rest : List Json) :
    (compact (.array (item :: rest))).toList =
      '[' :: (item.compact.toList ++ (itemsBehind rest ++ [']'])) := by
  rw [compact, compactItems, String.toList_append, String.toList_append, toList_intercalate_cons,
    flatMap_compactItems, List.append_assoc, List.append_assoc]
  rfl

theorem toList_compact_object (key : String) (value : Json) (rest : List (String × Json))
    (ending : Option Fault) :
    (compact (.object ((key, value) :: rest) ending)).toList =
      '\x7b' :: (keyText key ++ (value.compact.toList ++ (membersBehind rest ++ ['\x7d']))) := by
  rw [compact, compactMembers, String.toList_append, String.toList_append, toList_intercalate_cons,
    flatMap_compactMembers, String.toList_append, String.toList_append, List.append_assoc,
    List.append_assoc, List.append_assoc]
  rfl

theorem endsNumber_itemsBehind (items : List Json) (rest : List Char) :
    EndsNumber (itemsBehind items ++ ']' :: rest) := by
  cases items with
  | nil => exact fun c hc => by cases hc; decide
  | cons item items => exact fun c hc => by cases hc; decide

theorem endsNumber_membersBehind (members : List (String × Json)) (rest : List Char) :
    EndsNumber (membersBehind members ++ '\x7d' :: rest) := by
  cases members with
  | nil => exact fun c hc => by cases hc; decide
  | cons m members => exact fun c hc => by cases hc; decide

/-! ## Scans -/

section Scans

variable {opened : List Opened} {expect : Expect} {rest behind : List Char}

theorem scanFrom_lexeme {c : Char} {lexeme : Lexeme} {next : Scan} (hblank : isBlank c = false)
    (hlexeme : lexeme? c rest = some (lexeme, behind))
    (hstep : Scan.step opened expect lexeme = some next) :
    Document.scanFrom (c :: rest) (.inside opened expect) = Document.scanFrom behind next := by
  rw [Document.scanFrom, if_neg (by rw [hblank]; exact Bool.false_ne_true)]
  split
  · rename_i hnone
    rw [hlexeme] at hnone
    cases hnone
  · rename_i lexeme' behind' hsome
    rw [hlexeme] at hsome
    cases hsome
    rw [hstep]

theorem scanFrom_quote (s : String) {next : Scan}
    (hstep : Scan.step opened expect (.text (some s)) = some next) :
    Document.scanFrom ((quote s).toList ++ rest) (.inside opened expect) =
      Document.scanFrom rest next := by
  rw [toList_quote, List.cons_append, List.append_assoc]
  exact scanFrom_lexeme rfl (lexeme?_quote s rest) hstep

theorem scanFrom_natural {n : Nat} (hn : n < UInt64.size) (h : EndsNumber rest) (orBracket : Bool) :
    Document.scanFrom ((toString n).toList ++ rest) (.inside opened (.value orBracket)) =
      Document.scanFrom rest (Scan.finish (.natural n) opened) := by
  obtain ⟨c, digits, hcons, hdigit, hlexeme⟩ := lexeme?_natural hn h
  have hblank : isBlank c = false := by
    unfold isBlank
    rw [decide_eq_false_iff_not]
    rintro (rfl | rfl | rfl | rfl) <;> cases hdigit
  rw [Nat.toString_eq_repr, Nat.toList_repr, hcons]
  exact scanFrom_lexeme hblank hlexeme rfl

/-- A key with its colon leaves off before the value. -/
theorem scanFrom_key (key : String) (found : List (String × Json)) (previous : String)
    (orBrace : Bool) :
    Document.scanFrom (keyText key ++ rest)
        (.inside (.object found false previous :: opened) (.key orBrace)) =
      Document.scanFrom rest (.inside (.object found false key :: opened) (.value false)) := by
  rw [keyText, List.append_assoc]
  refine (scanFrom_quote key rfl).trans ?_
  exact scanFrom_lexeme rfl rfl rfl

theorem close_eq {innermost : Opened} {outer : List Opened} (h : outer.length < depthLimit) :
    Scan.close innermost outer = Scan.finish innermost.closed outer := by
  rw [Scan.close, if_neg (Nat.not_le.mpr h)]

end Scans

mutual

/-- Reading a printed value leaves off behind it, and finishes it. -/
theorem scanFrom_compact (value : Json) (room : Nat) (hfits : fits room value = true)
    (opened : List Opened) (hroom : room + opened.length ≤ depthLimit) (orBracket : Bool)
    (rest : List Char) (hrest : EndsNumber rest) :
    Document.scanFrom (value.compact.toList ++ rest) (.inside opened (.value orBracket)) =
      Document.scanFrom rest (Scan.finish value opened) := by
  match value with
  | .null => exact scanFrom_lexeme rfl rfl rfl
  | .bool true => exact scanFrom_lexeme rfl rfl rfl
  | .bool false => exact scanFrom_lexeme rfl rfl rfl
  | .natural n =>
    rw [fits, decide_eq_true_eq] at hfits
    exact scanFrom_natural hfits hrest orBracket
  | .string s => exact scanFrom_quote s rfl
  | .array items =>
    rw [fits, Bool.and_eq_true, decide_eq_true_eq] at hfits
    obtain ⟨hdeep, hitems⟩ := hfits
    match items with
    | [] =>
      refine (scanFrom_lexeme rfl rfl rfl).trans ?_
      refine (scanFrom_lexeme rfl rfl rfl).trans ?_
      rw [close_eq (by omega)]
      rfl
    | item :: items =>
      rw [fitsItems, Bool.and_eq_true] at hitems
      rw [toList_compact_array, List.cons_append, List.append_assoc, List.append_assoc]
      refine (scanFrom_lexeme rfl rfl rfl).trans ?_
      have hends := endsNumber_itemsBehind items rest
      refine (scanFrom_compact item (room - 1) hitems.1 (.array [] :: opened)
        (by rw [List.length_cons]; omega) true _ hends).trans ?_
      exact scanFrom_items items (room - 1) hitems.2 [item] opened (by omega) rest
  | .object members ending =>
    rw [fits, Bool.and_eq_true, Bool.and_eq_true, decide_eq_true_eq, Option.isNone_iff_eq_none]
      at hfits
    obtain ⟨⟨hdeep, hmembers⟩, hending⟩ := hfits
    subst hending
    match members with
    | [] =>
      refine (scanFrom_lexeme rfl rfl rfl).trans ?_
      refine (scanFrom_lexeme rfl rfl rfl).trans ?_
      rw [close_eq (by omega)]
      rfl
    | (key, value) :: members =>
      rw [fitsMembers, Bool.and_eq_true] at hmembers
      rw [toList_compact_object, List.cons_append, List.append_assoc, List.append_assoc,
        List.append_assoc]
      refine (scanFrom_lexeme rfl rfl rfl).trans ?_
      refine (scanFrom_key key [] "" true).trans ?_
      have hends := endsNumber_membersBehind members rest
      refine (scanFrom_compact value (room - 1) hmembers.1 (.object [] false key :: opened)
        (by rw [List.length_cons]; omega) false _ hends).trans ?_
      exact scanFrom_members members (room - 1) hmembers.2 [(key, value)] key opened (by omega) rest

/-- Reading the items behind the first ones finishes the array. -/
theorem scanFrom_items (items : List Json) (room : Nat) (hfits : fitsItems room items = true)
    (found : List Json) (opened : List Opened) (hroom : room + opened.length < depthLimit)
    (rest : List Char) :
    Document.scanFrom (itemsBehind items ++ ']' :: rest) (.inside (.array found :: opened) .more) =
      Document.scanFrom rest (Scan.finish (.array (found.reverse ++ items)) opened) := by
  match items with
  | [] =>
    refine (scanFrom_lexeme rfl rfl rfl).trans ?_
    rw [close_eq (by omega), List.append_nil]
    rfl
  | item :: items =>
    rw [fitsItems, Bool.and_eq_true] at hfits
    have hends := endsNumber_itemsBehind items rest
    have hbehind := scanFrom_items items room hfits.2 (item :: found) opened hroom rest
    rw [itemsBehind_cons, List.cons_append, List.append_assoc]
    refine (scanFrom_lexeme rfl rfl rfl).trans ?_
    refine (scanFrom_compact item room hfits.1 (.array found :: opened)
      (by rw [List.length_cons]; omega) false _ hends).trans ?_
    rw [List.reverse_cons, List.append_assoc] at hbehind
    exact hbehind

/-- Reading the members behind the first ones finishes the object. -/
theorem scanFrom_members (members : List (String × Json)) (room : Nat)
    (hfits : fitsMembers room members = true) (found : List (String × Json)) (previous : String)
    (opened : List Opened) (hroom : room + opened.length < depthLimit) (rest : List Char) :
    Document.scanFrom (membersBehind members ++ '\x7d' :: rest)
        (.inside (.object found false previous :: opened) .more) =
      Document.scanFrom rest (Scan.finish (record (found.reverse ++ members)) opened) := by
  match members with
  | [] =>
    refine (scanFrom_lexeme rfl rfl rfl).trans ?_
    rw [close_eq (by omega), List.append_nil]
    rfl
  | (key, value) :: members =>
    rw [fitsMembers, Bool.and_eq_true] at hfits
    have hends := endsNumber_membersBehind members rest
    have hbehind := scanFrom_members members room hfits.2 ((key, value) :: found) key opened hroom rest
    rw [membersBehind_cons, List.cons_append, List.append_assoc, List.append_assoc]
    refine (scanFrom_lexeme rfl rfl rfl).trans ?_
    refine (scanFrom_key key found previous false).trans ?_
    refine (scanFrom_compact value room hfits.1 (.object found false key :: opened)
      (by rw [List.length_cons]; omega) false _ hends).trans ?_
    rw [List.reverse_cons, List.append_assoc] at hbehind
    exact hbehind

end

/-- The text is that of a value, and nothing in it is at fault. -/
structure Denotes (text : String) (value : Json) : Prop where
  document : Document.ofText text = ⟨value, false⟩
  readable : value.readable = true

/-- The compact text of a value denotes the value. -/
theorem denotes_compact {value : Json} (h : fits depthLimit value = true) :
    Denotes value.compact value := by
  refine ⟨?_, readable_of_fits value depthLimit h⟩
  have hends : EndsNumber [] := fun c hc => by cases hc
  have hscan := scanFrom_compact value depthLimit h [] (Nat.le_refl _) false [] hends
  rw [List.append_nil] at hscan
  unfold Document.ofText Scan.start
  rw [hscan, Scan.finish, Document.scanFrom]

/-- What is read of a value is read of each text that denotes it. -/
theorem readText_of_denotes {α : Type} {content : Json → Read α} {text : String} {value : Json}
    {a : α} (h : Denotes text value) (hread : content value = .ok a) :
    readText content text = .ok a := by
  unfold readText
  rw [h.document, Document.read, hread]
  rfl

end TraceGloss.Json
