import Mathlib.Data.List.TakeWhile
import OnePass.Proofs.Calls.Nesting
import OnePass.Proofs.Listing.RoundTrip
import OnePass.Proofs.Names.Uses
import OnePass.Proofs.Names.Values
import OnePass.Proofs.Trace.Words

/-!
Instructions are read back from their lines. How many words a line has, and whether the second is an
equals sign, tells most forms apart; the rest is told by the first word or by the first character of
an operand. Only the function and the position of an argument are not on the line.
-/

namespace OnePass

namespace Ty

def ofKeyword? (text : String) : Option Ty :=
  [void, char, int].find? (·.keyword == text)

@[simp]
theorem ofKeyword?_keyword (ty : Ty) : ofKeyword? ty.keyword = some ty := by
  cases ty <;> decide

theorem keyword_ne (ty : Ty) : ty.keyword ≠ "=" := by
  cases ty <;> decide

theorem plain_keyword (ty : Ty) : Text.plain ty.keyword = true := by
  cases ty <;> decide

end Ty

namespace ArithOp

def ofSymbol? (text : String) : Option ArithOp :=
  [add, sub, mul, div].find? (·.symbol == text)

@[simp]
theorem ofSymbol?_symbol (op : ArithOp) : ofSymbol? op.symbol = some op := by
  cases op <;> decide

theorem solid_symbol (op : ArithOp) : Text.Solid op.symbol.toList := by
  cases op <;> exact .of_all (by decide)

end ArithOp

namespace Relation

def ofOpcode? (text : String) : Option Relation :=
  [eq, ne, lt, ge, le, gt].find? (·.opcode == text)

@[simp]
theorem ofOpcode?_opcode (relation : Relation) : ofOpcode? relation.opcode = some relation := by
  cases relation <;> decide

theorem plain_opcode (relation : Relation) : Text.plain relation.opcode = true := by
  cases relation <;> decide

end Relation

namespace Label

def read (text : String) : Label :=
  ⟨Text.number text⟩

@[simp]
theorem read_text (label : Label) : read label.text = label := by
  rw [read, text, Text.number_append (by decide)]

theorem plain_text (label : Label) : Text.plain label.text = true :=
  Text.plain_append (by decide) (Text.plain_repr _)

end Label

/-- Whether a text names a register. -/
def Text.isReg (text : String) : Bool :=
  text.toList.head? == some '#'

theorem Text.isReg_of_plain {text : String} (h : Text.plain text = true) :
    Text.isReg text = false := by
  rw [isReg, beq_eq_false_iff_ne]
  intro hhead
  exact Text.notMem_of_plain h (by decide) (List.mem_of_mem_head? hhead)

namespace Reg

def read (text : String) : Reg :=
  ⟨Text.number text⟩

@[simp]
theorem read_text (reg : Reg) : read reg.text = reg := by
  rw [read, text, Text.number_append (by decide)]

@[simp]
theorem isReg_text (reg : Reg) : Text.isReg reg.text = true := by
  simp [Text.isReg, text]

theorem solid_text (reg : Reg) : Text.Solid reg.text.toList := by
  rw [text, String.toList_append]
  exact (Text.Solid.of_all (by decide)).append (.of_plain (Text.plain_repr _))

end Reg

namespace Operand

def read (text : String) : Operand :=
  if Text.isReg text then .reg (.read text) else .named text

/-- An operand whose text can be told from what stands around it. -/
inductive Legible : Operand → Prop where
  | reg (r : Reg) : Legible (.reg r)
  | plain {text : String} (h : Text.plain text = true) : Legible (.named text)
  | quoted {value : String} {c : Char} (hvalue : value.toList = [c]) (hline : c ≠ '\n') :
      Legible (.ofChar value)

namespace Legible

variable {operand : Operand}

theorem solid (h : operand.Legible) : Text.Solid operand.text.toList := by
  cases h with
  | reg r => exact r.solid_text
  | plain h => exact .of_plain h
  | quoted hvalue hline =>
      rw [Text.toList_ofChar hvalue]
      exact .quoted hline

theorem read_text (h : operand.Legible) : read operand.text = operand := by
  cases h with
  | reg r => simp [read, Operand.text]
  | plain h => simp [read, Operand.text, Text.isReg_of_plain h]
  | @quoted value c hvalue hline =>
      have hreg : Text.isReg (ofChar value).text = false := by
        rw [Text.isReg, Text.toList_ofChar hvalue, List.head?_cons]
        decide
      rw [read, hreg]
      rfl

/-- An operand is no equals sign. -/
theorem text_ne (h : operand.Legible) : operand.text ≠ "=" := by
  intro heq
  have hlist : operand.text.toList = ['='] := by rw [heq]; rfl
  cases h with
  | reg r => simp [Operand.text, Reg.text] at hlist
  | @plain text h =>
      have hmem : '=' ∈ text.toList := by
        change text.toList = ['='] at hlist
        simp [hlist]
      exact Text.notMem_of_plain h (by decide) hmem
  | quoted hvalue hline => simp [Text.toList_ofChar hvalue] at hlist

end Legible

end Operand

namespace Text

/-- The name and the index of a text that stands for an element. -/
def element? (text : String) : Option (String × String) :=
  (cut '[' text.toList).map fun (name, rest) => (String.ofList name, String.ofList rest.dropLast)

theorem element?_of_plain {text : String} (h : plain text = true) : element? text = none := by
  have hall : ∀ c ∈ text.toList, (c != '[') = true := by
    intro c hc
    rw [bne_iff_ne]
    exact ne_of_plain h hc (by decide)
  have hnone : cut '[' text.toList = none := by
    unfold cut
    rw [List.dropWhile_eq_nil_iff.2 hall]
  rw [element?, hnone]
  rfl

theorem element?_append {name : String} (h : plain name = true) (index : String) :
    element? (name ++ "[" ++ index ++ "]") = some (name, index) := by
  have hlist : (name ++ "[" ++ index ++ "]").toList =
      name.toList ++ '[' :: (index.toList ++ [']']) := by
    simp
  rw [element?, hlist, cut_append (notMem_of_plain h (by decide))]
  simp

theorem Solid.element {name index : String} (hname : plain name = true)
    (hindex : Solid index.toList) : Solid (name ++ "[" ++ index ++ "]").toList := by
  simp only [String.toList_append]
  exact (((Solid.of_plain hname).append (.of_all (by decide))).append hindex).append
    (.of_all (by decide))

end Text

namespace Instr

/-- The words of the line of an instruction. -/
def words : Instr → List String
  | param ty name => ["parameter", ty.keyword, name]
  | var ty name none => ["variable", ty.keyword, name]
  | var ty name (some length) =>
    ["variable", ty.keyword, name ++ "[" ++ Text.wordText length ++ "]"]
  | funcDeclare ty name => [ty.keyword, name ++ "()"]
  | label l => [l.text ++ ":"]
  | jump l => ["jump", l.text]
  | branch relation lhs rhs l => [relation.opcode, lhs.text, rhs.text, l.text]
  | branchZero value l => ["bez", value.text, l.text]
  | branchNonzero value l => ["bnz", value.text, l.text]
  | arith op dst lhs rhs => [dst.text, "=", lhs.text, op.symbol, rhs.text]
  | neg dst value => [dst.text, "=", "-" ++ value.text]
  | step target source op amount => [target, "=", source, op.symbol, Text.numberText amount]
  | load dst name => [dst.text, "=", name]
  | loadElement dst name index => [dst.text, "=", name ++ "[" ++ index.text ++ "]"]
  | assign name value => [name, "=", value.text]
  | assignElement name index value => [name ++ "[" ++ index.text ++ "]", "=", value.text]
  | save function => ["save", function]
  | push _ value _ => ["push", value.text]
  | call function => ["call", function]
  | takeResult dst => [dst.text, "=", "RET"]
  | functionEnd => ["function", "end"]
  | scan ty name => ["scanf", ty.keyword, name]
  | printString index => ["printf", "str_" ++ Nat.repr index]
  | printInt value => ["printf", "int", value.text]
  | printChar value => ["printf", "char", value.text]
  | printEnd => ["printf_end"]
  | ret value => ["return", value.text]
  | retVoid => ["return"]

theorem toList_text (instr : Instr) :
    instr.text.toList = [' '].intercalate (instr.words.map String.toList) := by
  cases instr with
  | var ty name length => cases length <;> simp [text, words]
  | _ => simp [text, words]

/-- An instruction as far as it is printed. -/
def printed : Instr → Instr
  | push _ value _ => push "" value 0
  | instr => instr

def ofWord (word : String) : Instr :=
  if word = "return" then retVoid
  else if word = "printf_end" then printEnd
  else label (.read word)

def ofPair? (head last : String) : Option Instr :=
  match head with
  | "jump" => some (jump (.read last))
  | "save" => some (save last)
  | "push" => some (push "" (.read last) 0)
  | "call" => some (call last)
  | "printf" => some (printString (Text.number last))
  | "return" => some (ret (.read last))
  | "function" => some functionEnd
  | _ => do
    let ty ← Ty.ofKeyword? head
    let (name, _) ← Text.cut '(' last.toList
    return funcDeclare ty (String.ofList name)

def ofTriple? (head mid last : String) : Option Instr :=
  match head with
  | "parameter" => (Ty.ofKeyword? mid).map (param · last)
  | "variable" => (Ty.ofKeyword? mid).map fun ty =>
    match Text.element? last with
    | none => var ty last none
    | some (name, length) => var ty name (Text.unsigned? length.toList)
  | "bez" => some (branchZero (.read mid) (.read last))
  | "bnz" => some (branchNonzero (.read mid) (.read last))
  | "scanf" => (Ty.ofKeyword? mid).map (scan · last)
  | "printf" => some (if mid = "int" then printInt (.read last) else printChar (.read last))
  | _ => none

def ofAssignment (target value : String) : Instr :=
  if Text.isReg target then
    if value = "RET" then takeResult (.read target)
    else if value.toList.head? = some '-' then
      neg (.read target) (.read (String.ofList value.toList.tail))
    else
      match Text.element? value with
      | none => load (.read target) value
      | some (name, index) => loadElement (.read target) name (.read index)
  else
    match Text.element? target with
    | none => assign target (.read value)
    | some (name, index) => assignElement name (.read index) (.read value)

def ofOperation? (target lhs symbol rhs : String) : Option Instr := do
  let op ← ArithOp.ofSymbol? symbol
  if Text.isReg target then
    return arith op (.read target) (.read lhs) (.read rhs)
  else
    return step target lhs op (← Text.signed? rhs.toList)

/-- The instruction on a line, as far as it is printed. -/
def ofWords? : List String → Option Instr
  | [word] => some (ofWord word)
  | [head, last] => ofPair? head last
  | [head, mid, last] =>
    if mid = "=" then some (ofAssignment head last) else ofTriple? head mid last
  | [head, lhs, rhs, last] => do
    let relation ← Relation.ofOpcode? head
    return branch relation (.read lhs) (.read rhs) (.read last)
  | [target, _, lhs, symbol, rhs] => ofOperation? target lhs symbol rhs
  | _ => none

/-- The name that an instruction announces. -/
def announced? : Instr → Option String
  | param _ name | var _ name _ | funcDeclare _ name => some name
  | _ => none

/-- An instruction that can be told by its line: its names are names, its operands are legible, and
it does not load a variable, which looks like the result of a call if that is called `RET`. -/
structure Legible (instr : Instr) : Prop where
  operands : ∀ operand ∈ instr.operands, operand.Legible
  mentions : ∀ mention ∈ instr.mentions, Text.isName mention.2 = true
  callee : ∀ function ∈ instr.callee?, Text.isName function = true
  announced : ∀ name ∈ instr.announced?, Text.isName name = true
  loads : ∀ dst name, instr ≠ load dst name

section Reading

theorem ofWord_text (l : Label) : ofWord (l.text ++ ":") = label l := by
  have hne : ∀ word : String, ':' ∉ word.toList → l.text ++ ":" ≠ word := by
    rintro word hword rfl
    simp at hword
  have hnumber : Text.number (l.text ++ ":") = Text.number l.text := by
    simp [Text.number, show (':' : Char).isDigit = false by decide]
  rw [ofWord, if_neg (hne _ (by decide)), if_neg (hne _ (by decide)), Label.read, hnumber]
  exact congrArg label l.read_text

theorem ofPair?_funcDeclare (ty : Ty) {name : String} (h : Text.plain name = true) :
    ofPair? ty.keyword (name ++ "()") = some (funcDeclare ty name) := by
  have hcut : Text.cut '(' (name.toList ++ ['(', ')']) = some (name.toList, [')']) :=
    Text.cut_append (Text.notMem_of_plain h (by decide)) [')']
  cases ty <;> simp [ofPair?, Ty.keyword, Ty.ofKeyword?, hcut]

theorem ofTriple?_var (ty : Ty) {name : String} (h : Text.plain name = true) (length : UInt64) :
    ofTriple? "variable" ty.keyword (name ++ "[" ++ Text.wordText length ++ "]") =
      some (var ty name (some length)) := by
  simp [ofTriple?, Text.element?_append h, Text.unsigned?_wordText]

theorem ofAssignment_neg (dst : Reg) {value : Operand} (h : value.Legible) :
    ofAssignment dst.text ("-" ++ value.text) = neg dst value := by
  have hresult : "-" ++ value.text ≠ "RET" := by
    intro heq
    have hlist := congrArg String.toList heq
    simp at hlist
  simp [ofAssignment, hresult, h.read_text]

theorem ofAssignment_loadElement (dst : Reg) {name : String} (hname : Text.isName name = true)
    {index : Operand} (h : index.Legible) :
    ofAssignment dst.text (name ++ "[" ++ index.text ++ "]") = loadElement dst name index := by
  have hresult : name ++ "[" ++ index.text ++ "]" ≠ "RET" := by
    intro heq
    have hmem : '[' ∈ (name ++ "[" ++ index.text ++ "]").toList := by simp
    rw [heq] at hmem
    revert hmem
    decide
  obtain ⟨c, cs, hlist, -, -, hminus, -⟩ := Text.first_of_isName hname
  simp [ofAssignment, hresult, hlist, hminus, Text.element?_append (Text.plain_of_isName hname),
    h.read_text]

theorem ofAssignment_assign {name : String} (hname : Text.plain name = true) {value : Operand}
    (h : value.Legible) : ofAssignment name value.text = assign name value := by
  simp [ofAssignment, Text.isReg_of_plain hname, Text.element?_of_plain hname, h.read_text]

theorem ofAssignment_assignElement {name : String} (hname : Text.isName name = true)
    {index value : Operand} (hindex : index.Legible) (hvalue : value.Legible) :
    ofAssignment (name ++ "[" ++ index.text ++ "]") value.text =
      assignElement name index value := by
  obtain ⟨c, cs, hlist, -⟩ := Text.first_of_isName hname
  have hhash : c ≠ '#' := by
    have hmem : c ∈ name.toList := by simp [hlist]
    exact Text.ne_of_plain (Text.plain_of_isName hname) hmem (by decide)
  have hreg : Text.isReg (name ++ "[" ++ index.text ++ "]") = false := by
    simp [Text.isReg, hlist, hhash]
  simp [ofAssignment, hreg, Text.element?_append (Text.plain_of_isName hname), hindex.read_text,
    hvalue.read_text]

theorem ofOperation?_arith (op : ArithOp) (dst : Reg) {lhs rhs : Operand} (hlhs : lhs.Legible)
    (hrhs : rhs.Legible) :
    ofOperation? dst.text lhs.text op.symbol rhs.text = some (arith op dst lhs rhs) := by
  simp [ofOperation?, hlhs.read_text, hrhs.read_text]

theorem ofOperation?_step {target : String} (h : Text.plain target = true) (source : String)
    (op : ArithOp) (amount : Int64) :
    ofOperation? target source op.symbol (Text.numberText amount) =
      some (step target source op amount) := by
  simp [ofOperation?, Text.isReg_of_plain h, Text.signed?_numberText]

/-- An instruction that is legible is told by the words of its line. -/
theorem ofWords?_words {instr : Instr} (h : instr.Legible) :
    ofWords? instr.words = some instr.printed := by
  have hoperand : ∀ operand ∈ instr.operands, operand.Legible := h.operands
  have hmention : ∀ mention ∈ instr.mentions, Text.isName mention.2 = true := h.mentions
  have hplain : ∀ name ∈ instr.announced?, Text.plain name = true :=
    fun name hname => Text.plain_of_isName (h.announced name hname)
  cases instr with
  | param ty name | scan ty name => simp [words, printed, ofWords?, ofTriple?, ty.keyword_ne]
  | var ty name length =>
      cases length with
      | none =>
          simp [words, printed, ofWords?, ty.keyword_ne, ofTriple?,
            Text.element?_of_plain (hplain name rfl)]
      | some length =>
          simp only [words, ofWords?, if_neg ty.keyword_ne]
          exact ofTriple?_var ty (hplain name rfl) length
  | funcDeclare ty name => exact ofPair?_funcDeclare ty (hplain name rfl)
  | label l => exact congrArg some (ofWord_text l)
  | jump l | save function | call function | functionEnd =>
      simp [words, printed, ofWords?, ofPair?]
  | printString index =>
      have hindex : Text.number ("str_" ++ Nat.repr index) = index :=
        Text.number_append (by decide) index
      simp [words, printed, ofWords?, ofPair?, hindex]
  | branch relation lhs rhs l =>
      have hlhs := hoperand lhs (by simp [operands])
      have hrhs := hoperand rhs (by simp [operands])
      simp [words, printed, ofWords?, hlhs.read_text, hrhs.read_text]
  | branchZero value l | branchNonzero value l =>
      have hvalue := hoperand value (by simp [operands])
      simp [words, printed, ofWords?, ofTriple?, hvalue.text_ne, hvalue.read_text]
  | arith op dst lhs rhs =>
      exact ofOperation?_arith op dst (hoperand lhs (by simp [operands]))
        (hoperand rhs (by simp [operands]))
  | neg dst value =>
      exact congrArg some (ofAssignment_neg dst (hoperand value (by simp [operands])))
  | step target source op amount =>
      have htarget := hmention (.assigned, target) (by simp [mentions])
      exact ofOperation?_step (Text.plain_of_isName htarget) source op amount
  | load dst name => exact absurd rfl (h.loads dst name)
  | loadElement dst name index =>
      have hname := hmention (.loaded, name) (by simp [mentions])
      exact congrArg some
        (ofAssignment_loadElement dst hname (hoperand index (by simp [operands])))
  | assign name value =>
      have hname := hmention (.assigned, name) (by simp [mentions])
      exact congrArg some (ofAssignment_assign (Text.plain_of_isName hname)
        (hoperand value (by simp [operands])))
  | assignElement name index value =>
      have hname := hmention (.assigned, name) (by simp [mentions])
      exact congrArg some (ofAssignment_assignElement hname (hoperand index (by simp [operands]))
        (hoperand value (by simp [operands])))
  | push function value position =>
      simp [words, printed, ofWords?, ofPair?, (hoperand value (by simp [operands])).read_text]
  | ret value =>
      simp [words, printed, ofWords?, ofPair?, (hoperand value (by simp [operands])).read_text]
  | takeResult dst => simp [words, printed, ofWords?, ofAssignment]
  | printInt value | printChar value =>
      simp [words, printed, ofWords?, ofTriple?, (hoperand value (by simp [operands])).read_text]
  | printEnd | retVoid => simp [words, printed, ofWords?, ofWord]

end Reading

section Lines

/-- The words of a legible instruction are told apart on its line. -/
theorem Legible.solidAll {instr : Instr} (h : instr.Legible) : Text.SolidAll instr.words := by
  have hoperand : ∀ operand ∈ instr.operands, Text.Solid operand.text.toList :=
    fun operand hoperand => (h.operands operand hoperand).solid
  have hmention : ∀ mention ∈ instr.mentions, Text.plain mention.2 = true :=
    fun mention hmention => Text.plain_of_isName (h.mentions mention hmention)
  have hcallee : ∀ function ∈ instr.callee?, Text.plain function = true :=
    fun function hfunction => Text.plain_of_isName (h.callee function hfunction)
  have hannounced : ∀ name ∈ instr.announced?, Text.plain name = true :=
    fun name hname => Text.plain_of_isName (h.announced name hname)
  cases instr with
  | param ty name =>
      exact .plain (by decide) (.plain ty.plain_keyword (.plain (hannounced name rfl) .nil))
  | var ty name length =>
      have hname := hannounced name rfl
      cases length with
      | none => exact .plain (by decide) (.plain ty.plain_keyword (.plain hname .nil))
      | some length =>
          have helement := Text.Solid.element hname (.of_plain (Text.plain_repr length.toNat))
          exact .plain (by decide) (.plain ty.plain_keyword (.cons helement .nil))
  | funcDeclare ty name =>
      have hname : Text.Solid (name ++ "()").toList := by
        rw [String.toList_append]
        exact (Text.Solid.of_plain (hannounced name rfl)).append (.of_all (by decide))
      exact .plain ty.plain_keyword (.cons hname .nil)
  | label l =>
      have hlabel : Text.Solid (l.text ++ ":").toList := by
        rw [String.toList_append]
        exact (Text.Solid.of_plain l.plain_text).append (.of_all (by decide))
      exact .cons hlabel .nil
  | jump l => exact .plain (by decide) (.plain l.plain_text .nil)
  | branch relation lhs rhs l =>
      exact .plain relation.plain_opcode (.cons (hoperand lhs (by simp [Instr.operands]))
        (.cons (hoperand rhs (by simp [Instr.operands])) (.plain l.plain_text .nil)))
  | branchZero value l | branchNonzero value l =>
      exact .plain (by decide) (.cons (hoperand value (by simp [Instr.operands]))
        (.plain l.plain_text .nil))
  | arith op dst lhs rhs =>
      exact .assignment dst.solid_text (.cons (hoperand lhs (by simp [Instr.operands]))
        (.cons op.solid_symbol (.cons (hoperand rhs (by simp [Instr.operands])) .nil)))
  | neg dst value =>
      have hvalue : Text.Solid ("-" ++ value.text).toList := by
        rw [String.toList_append]
        exact (Text.Solid.of_all (by decide)).append (hoperand value (by simp [Instr.operands]))
      exact .assignment dst.solid_text (.cons hvalue .nil)
  | step target source op amount =>
      have htarget := hmention (.assigned, target) (by simp [Instr.mentions])
      have hsource := hmention (.stepped, source) (by simp [Instr.mentions])
      exact .assignment (.of_plain htarget) (.plain hsource
        (.cons op.solid_symbol (.plain (Text.plain_numberText amount) .nil)))
  | load dst name => exact absurd rfl (h.loads dst name)
  | loadElement dst name index =>
      have hname := hmention (.loaded, name) (by simp [Instr.mentions])
      exact .assignment dst.solid_text
        (.cons (.element hname (hoperand index (by simp [Instr.operands]))) .nil)
  | assign name value =>
      have hname := hmention (.assigned, name) (by simp [Instr.mentions])
      exact .assignment (.of_plain hname) (.cons (hoperand value (by simp [Instr.operands])) .nil)
  | assignElement name index value =>
      have hname := hmention (.assigned, name) (by simp [Instr.mentions])
      exact .assignment (.element hname (hoperand index (by simp [Instr.operands])))
        (.cons (hoperand value (by simp [Instr.operands])) .nil)
  | save function | call function =>
      exact .plain (by decide) (.plain (hcallee function rfl) .nil)
  | push function value position =>
      exact .plain (by decide) (.cons (hoperand value (by simp [Instr.operands])) .nil)
  | takeResult dst => exact .assignment dst.solid_text (.plain (by decide) .nil)
  | scan ty name =>
      have hname := hmention (.scanned, name) (by simp [Instr.mentions])
      exact .plain (by decide) (.plain ty.plain_keyword (.plain hname .nil))
  | printString index =>
      exact .plain (by decide) (.plain (Text.plain_append (by decide) (Text.plain_repr index)) .nil)
  | printInt value | printChar value =>
      exact .plain (by decide) (.plain (by decide)
        (.cons (hoperand value (by simp [Instr.operands])) .nil))
  | ret value => exact .plain (by decide) (.cons (hoperand value (by simp [Instr.operands])) .nil)
  | functionEnd => exact .plain (by decide) (.plain (by decide) .nil)
  | printEnd | retVoid => exact .plain (by decide) .nil

/-- The instruction on a line, as far as it is printed. -/
def ofLine? (line : List Char) : Option Instr :=
  ofWords? ((Text.words line).map String.ofList)

theorem ofLine?_text {instr : Instr} (h : instr.Legible) :
    ofLine? instr.text.toList = some instr.printed := by
  have hne : instr.words ≠ [] := by
    cases instr with
    | var ty name length => cases length <;> simp [words]
    | _ => simp [words]
  have hwords : (instr.words.map String.toList).map String.ofList = instr.words := by simp
  rw [ofLine?, toList_text, Text.words_intercalate hne h.solidAll, hwords, ofWords?_words h]

theorem Legible.newline_notMem {instr : Instr} (h : instr.Legible) :
    '\n' ∉ instr.text.toList := by
  rw [toList_text]
  exact Text.newline_notMem_intercalate h.solidAll

/-- The code on the lines of a text, as far as it is printed. -/
def unrender? (text : String) : Option (List Instr) :=
  (text.toList.splitOn '\n').dropLast.mapM ofLine?

theorem splitOn_render {code : List Instr} (h : ∀ instr ∈ code, instr.Legible) :
    (render code).toList.splitOn '\n' = code.map (fun instr => instr.text.toList) ++ [[]] := by
  induction code with
  | nil => rfl
  | cons instr code ih =>
      rw [List.forall_mem_cons] at h
      have hsplit : (render (instr :: code)).toList =
          instr.text.toList ++ '\n' :: (render code).toList := by
        simp [render, line]
      rw [hsplit, List.splitOn_append_cons_self, List.splitOn_eq_singleton h.1.newline_notMem,
        ih h.2]
      rfl

/-- The code is read back from its text, as far as it is printed. -/
theorem unrender?_render {code : List Instr} (h : ∀ instr ∈ code, instr.Legible) :
    unrender? (render code) = some (code.map printed) := by
  rw [unrender?, splitOn_render h, List.dropLast_concat]
  induction code with
  | nil => rfl
  | cons instr code ih =>
      rw [List.forall_mem_cons] at h
      rw [List.map_cons, List.mapM_cons, ofLine?_text h.1, ih h.2]
      rfl

end Lines

end Instr

end OnePass
