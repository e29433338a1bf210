import InstSelect.Machine.Program

/-!
# Listings

The text of a program. A listing is a sequence of lines, each indented by its nesting
depth. Operands are looked up in the function's arena, so a listing of a function with
dangling operands or blocks fails; so does one with a line indented by more than
`ListingStyle.widestIndent` spaces. Lines are made in order, and the first that fails
decides the failure.
-/

namespace InstSelect.Machine

/-- How a listing is written. -/
structure ListingStyle where
  /-- Spaces per nesting depth. -/
  indent : Nat
  /-- Whether registers and immediates carry their storage class, as in `%v1:i32`. -/
  showTypes : Bool
deriving DecidableEq, Repr

namespace ListingStyle

/-- Four spaces, with storage classes. -/
def standard : ListingStyle := ⟨4, true⟩

/-- The most spaces that may stand before a line. -/
def widestIndent : Nat := 65535

end ListingStyle

/-- A line of a listing. -/
structure Line where
  /-- Spaces before the text. -/
  indent : Nat
  text : String
deriving DecidableEq, Repr

namespace Line

/-- The line as text, with its indentation and its end. -/
def render (l : Line) : String :=
  String.ofList (List.replicate l.indent ' ') ++ l.text ++ "\n"

end Line

def ListingStyle.line (style : ListingStyle) (depth : Nat) (text : String) :
    Except Failure Line :=
  if depth * style.indent ≤ widestIndent then .ok ⟨depth * style.indent, text⟩
  else .error .indentation

/-- The text of a sequence of lines. -/
def renderLines (lines : List Line) : String :=
  String.join (lines.map Line.render)

namespace Reg

/-- A register inside a memory reference, always at full width. -/
def text : Reg → String
  | phys r => r.name .i64
  | virt r => toString r

end Reg

namespace Address

/-- Text such as `[rbp + %v1*4 - 8]`; a zero displacement is left out. -/
def text (a : Address) : String :=
  let index :=
    match a.index with
    | some r => s!" + {r.text}*{a.scale.toNat}"
    | none => ""
  let disp :=
    if 0 < a.disp.toInt then s!" + {a.disp.toInt}"
    else if a.disp.toInt < 0 then s!" - {a.disp.toInt.natAbs}"
    else ""
  "[" ++ a.base.text ++ index ++ disp ++ "]"

end Address

namespace Function

def operandText (f : Function) (showTypes : Bool) (id : OperandId) :
    Except Failure String := do
  let o ← f.operand id
  let typed (text : String) : String :=
    if showTypes && o.storage ≠ .void then s!"{text}:{o.storage}" else text
  match o.form with
  | .phys r => pure (r.name o.storage)
  | .virt r => pure (typed (toString r))
  | .slot id size align => pure s!"{id}[{size.toNat}, align {align.toNat}]"
  | .symbol name => pure s!"@{name}"
  | .imm value => pure (typed (toString value.toInt))
  | .mem address => pure s!"{o.storage} {address.text}"
  | .label block => do
    let b ← f.block block
    pure b.name

/-- An instruction's text; nothing follows the mnemonic if the operands have no text. -/
def instText (f : Function) (showTypes : Bool) (i : Inst) : Except Failure String := do
  let operands := ", ".intercalate (← i.operands.mapM (f.operandText showTypes))
  pure (if operands.isEmpty then i.op.mnemonic else i.op.mnemonic ++ " " ++ operands)

/--
The arguments in a function's header: operand and storage class, or the class alone.
-/
def argTexts (f : Function) (showTypes : Bool) : Except Failure (List String) :=
  f.argTypes.zipIdx.mapM fun (storage, index) =>
    match f.arg? index with
    | some id => do
      let text ← f.operandText showTypes id
      pure s!"{text}: {storage}"
    | none => pure storage.text

/--
The lines of a block at a depth: its label, then its instructions one level further in.
-/
def blockLines (f : Function) (style : ListingStyle) (depth : Nat) (id : BlockId) :
    Except Failure (List Line) := do
  let b ← f.block id
  let label ← style.line depth (b.name ++ ":")
  let insts ← b.insts.mapM fun i => do
    style.line (depth + 1) (← f.instText style.showTypes i)
  pure (label :: insts)

def lines (f : Function) (style : ListingStyle) (depth : Nat) :
    Except Failure (List Line) := do
  let args := ", ".intercalate (← f.argTexts style.showTypes)
  let vararg := if f.flags.isVararg then " vararg" else ""
  let header := s!"fn {f.name}({args}) -> {f.ret}{vararg}"
  if f.flags.isExternal then pure [← style.line depth ("declare " ++ header)]
  else
    let stack :=
      if 0 < f.maxCallStack then s!" [call stack {f.maxCallStack.toNat}]" else ""
    let first ← style.line depth (header ++ stack ++ " \x7b")
    let body ← f.layout.mapM (f.blockLines style depth)
    let last ← style.line depth "\x7d"
    pure (first :: body.flatten ++ [last])

def listing (f : Function) (style : ListingStyle) : Except Failure String := do
  pure (renderLines (← f.lines style 0))

end Function

namespace Image

/-- A byte as two hexadecimal digits. -/
def byteText (b : UInt8) : String :=
  String.ofList [Nat.digitChar (b.toNat / 16), Nat.digitChar (b.toNat % 16)]

/--
The lines of an image at a depth: its bytes, then its relocations one level further in.
-/
def lines (i : Image) (style : ListingStyle) (depth : Nat) :
    Except Failure (List Line) := do
  let bytes := " ".intercalate (i.data.toList.map byteText)
  let first ← style.line depth s!"@{i.name} align {i.align.toNat} = [{bytes}]"
  let relocations ← i.relocations.mapM fun r =>
    style.line (depth + 1) s!"reloc +{r.offset.toNat} -> @{r.symbol}"
  pure (first :: relocations)

end Image

namespace Program

/-- The lines of a program: its images, then its functions. -/
def lines (p : Program) (style : ListingStyle) : Except Failure (List Line) := do
  let first ← style.line 0 s!"mir::Module {p.name} \x7b"
  let images ← p.globals.mapM (·.lines style 1)
  let functions ← p.functions.mapM (·.lines style 1)
  let last ← style.line 0 "\x7d"
  pure (first :: images.flatten ++ functions.flatten ++ [last])

def listing (p : Program) (style : ListingStyle) : Except Failure String := do
  pure (renderLines (← p.lines style))

end Program

end InstSelect.Machine
