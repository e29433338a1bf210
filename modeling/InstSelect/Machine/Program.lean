import InstSelect.Machine.Function

/-!
# Data images and programs

A data image is the initial contents of a global: bytes, and relocations that ask the
linker to store the address of a symbol over eight of them. Images grow by appending. A
program collects images and sealed functions. Growing takes memory, and is refused where
there is none.
-/

namespace InstSelect.Machine

/-- A symbol whose address the linker stores at an offset of an image. -/
structure Relocation where
  offset : UInt64
  symbol : String
deriving DecidableEq, Repr

/-- The initial contents of a global. -/
structure Image where
  name : String
  align : UInt32
  data : Array UInt8
  relocations : List Relocation
deriving DecidableEq, Repr

namespace Image

/-- An image without contents. -/
def empty (name : String) (align : UInt32) : Image := ⟨name, align, #[], []⟩

/-- Number of bytes so far. -/
def size (i : Image) : UInt64 := UInt64.ofNat i.data.size

/-- No object has more bytes than this. -/
def maxSize : Nat := 1 <<< 63 - 1

/-- Gets memory for `count` more bytes. -/
def reserve [Allocator] (i : Image) (count : Nat) : Except Failure Unit :=
  if count = 0 then .ok ()
  else if maxSize < i.data.size + count then .error (.allocation .capacity)
  else Allocator.ask (.bytes (i.data.size + count))

/-- Appends bytes; the answer has the offset they start at. -/
def appendData [Allocator] (i : Image) (bytes : List UInt8) :
    Except Failure (UInt64 × Image) := do
  i.reserve bytes.length
  pure (i.size, { i with data := i.data.appendList bytes })

/-- Appends zero bytes; the answer has the offset they start at. -/
def appendZeros [Allocator] (i : Image) (count : UInt64) :
    Except Failure (UInt64 × Image) := do
  i.reserve count.toNat
  pure (i.size, { i with data := i.data ++ Array.replicate count.toNat 0 })

/-- Adds a relocation of eight bytes that lie within the image. -/
def addRelocation [Allocator] (i : Image) (offset : UInt64) (symbol : String) :
    Except Failure Image := do
  let stop ← Failure.ofWord (Word.addU64 offset 8)
  require (stop ≤ i.size) (.relocationOutside offset i.data.size i.name)
  Allocator.ask (.relocation i.relocations.length)
  pure { i with relocations := i.relocations ++ [⟨offset, symbol⟩] }

end Image

/-- A program: the images of its globals and its functions. -/
structure Program where
  name : String
  globals : List Image
  functions : List Function
deriving DecidableEq, Repr

namespace Program

/-- The program of a name, with nothing in it. -/
def empty (name : String) : Program := ⟨name, [], []⟩

/-- The program with one more global. -/
def pushGlobal (p : Program) (i : Image) : Program :=
  { p with globals := p.globals ++ [i] }

/-- Adds the finished image of a global. -/
def finishGlobal [Allocator] (p : Program) (i : Image) : Except Failure Program := do
  Allocator.ask .global
  pure (p.pushGlobal i)

/-- Adds a sealed function. -/
def pushFunction [Allocator] (p : Program) (f : Function) :
    Except Failure (FuncId × Program) := do
  require f.isSealed (.unsealed f.name)
  Allocator.ask .function
  pure (⟨UInt32.ofNat p.functions.length⟩, { p with functions := p.functions ++ [f] })

def function (p : Program) (id : FuncId) : Except Failure Function :=
  match p.functions[id.index.toNat]? with
  | some f => .ok f
  | none => violate (.danglingMachineFunction id)

/-- The first function of a name. -/
def functionByName? (p : Program) (name : String) : Option Function :=
  p.functions.find? fun f => f.name == name

/-- The first image of a name. -/
def globalByName? (p : Program) (name : String) : Option Image :=
  p.globals.find? fun i => i.name == name

end Program

end InstSelect.Machine
