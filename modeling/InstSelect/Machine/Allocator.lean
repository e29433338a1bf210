import InstSelect.Failure

/-!
# Allocators

Functions, images and programs grow by one entry at a time, and an entry is added only if
there is memory for it. What the allocator answers is not up to the program: each
operation that asks for memory has the allocator as a parameter. No two requests of one
operation of a session are equal, so an allocator that answers by request alone may refuse
any one of them and grant the others.
-/

namespace InstSelect.Machine

/--
A request for memory: for an entry of a list, known by how many entries the list has, or
for a number of bytes. A session adds at most one global or one function at a time.
-/
inductive Request
  | operand (count : Nat)
  | block (count : Nat)
  | layout (count : Nat)
  | inst (block : BlockId) (count : Nat)
  | relocation (count : Nat)
  | bytes (count : Nat)
  | global
  | function
deriving DecidableEq, Repr

/-- An allocator: why it refuses a request, if it does. -/
class Allocator where
  refusal? : Request → Option Allocation

namespace Allocator

/-- Asks for memory. -/
def ask [alloc : Allocator] (request : Request) : Except Failure Unit :=
  match alloc.refusal? request with
  | none => .ok ()
  | some cause => .error (.allocation cause)

/-- No machine has this many bytes: it is the whole user half of the address space. -/
def addressSpace : Nat := 1 <<< 47

/--
The allocator of a machine. It stands for the parameter where no other one is given.
-/
instance host : Allocator where
  refusal?
    | .bytes count => if addressSpace ≤ count then some .exhausted else none
    | _ => none

end Allocator

end InstSelect.Machine
