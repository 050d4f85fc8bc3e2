import TraceGloss.Opcode
import TraceGloss.Word

/-
  Symbolic expressions: how a word came about, as a tree, and its text. A literal is written in hex
  without leading zeros, an instruction by its mnemonic with its arguments in parentheses, and a wide
  word as `CONCAT` of its slots.
-/
namespace TraceGloss

inductive Expression
  | literal (w : Word)
  | constant (name : String)
  | apply (op : Opcode) (args : List Expression)
  | concat (parts : List Expression)
deriving Inhabited

namespace Expression

/-- Argument texts in parentheses; nothing for none. -/
def listed : List String → String
  | [] => ""
  | args => "(" ++ ",".intercalate args ++ ")"

theorem listed_eq (args : List String) :
    listed args = if args = [] then "" else "(" ++ ",".intercalate args ++ ")" := by
  cases args <;> rfl

mutual

def text : Expression → String
  | .literal w => w.literal
  | .constant name => name
  | .apply op args => op.mnemonic ++ listed (texts args)
  | .concat parts => "CONCAT(" ++ ",".intercalate (texts parts) ++ ")"

def texts : List Expression → List String
  | [] => []
  | e :: rest => e.text :: texts rest

end

theorem texts_eq_map (es : List Expression) : texts es = es.map text := by
  induction es with
  | nil => rfl
  | cons e rest ih => rw [texts, ih, List.map_cons]

@[simp] theorem text_literal (w : Word) : (literal w).text = w.literal := by rw [text]

@[simp] theorem text_constant (name : String) : (constant name).text = name := by rw [text]

@[simp] theorem text_apply (op : Opcode) (args : List Expression) :
    (apply op args).text = op.mnemonic ++
      if args = [] then "" else "(" ++ ",".intercalate (args.map text) ++ ")" := by
  rw [text, texts_eq_map, listed_eq]
  simp only [List.map_eq_nil_iff]

@[simp] theorem text_concat (parts : List Expression) :
    (concat parts).text = "CONCAT(" ++ ",".intercalate (parts.map text) ++ ")" := by
  rw [text, texts_eq_map]

example : (apply .add [literal (.ofUInt64 2), constant "LIMIT"]).text = "ADD(0x2,LIMIT)" := by
  decide +kernel

end Expression

end TraceGloss
