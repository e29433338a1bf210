import InstSelect.Text.Describe

/-!
# Diagnostics

The text of every failure: a heading for its family, then the cause.
-/

namespace InstSelect

namespace Failure

/-- The families of failures. -/
inductive Family
  | unsupported
  | allocation
  | generic
  | violation
  | overflow
  | formatting
deriving DecidableEq, Repr

namespace Family

/-- What stands before the cause. -/
def heading : Family → String
  | unsupported => "unsupported feature: "
  | allocation => "allocation failure: "
  | generic => "Generic error: "
  | violation => "invariant violation: "
  | overflow => "attempt to "
  | formatting => "Formatting argument "

/-- A diagnostic of the family with the given cause. -/
def message (family : Family) (cause : String) : String := family.heading ++ cause

end Family

def family : Failure → Family
  | .unsupported _ => .unsupported
  | .allocation _ => .allocation
  | .generic _ => .generic
  | .violation _ => .violation
  | .overflow _ => .overflow
  | .indentation => .formatting

end Failure

/-- How a type family is spoken of. -/
def Unstorable.text : Unstorable → String
  | array => "array"
  | function => "function"
  | type => "type"

/-- The cause of a refusal. -/
def Unsupported.text : Unsupported → String
  | storage family => s!"{family.text} values have no machine type"
  | floating role => s!"floating-point {role}"
  | structByValue name size role =>
    let name := name.getD "<anonymous>"
    s!"struct {name} of {size.toNat} bytes as {role} by value"
  | intrinsic name => s!"intrinsic `{name}` has no runtime routine"
  | parameters function count limit =>
    s!"{function} takes {count} parameters; only {limit} register parameters are supported"
  | arguments call count limit =>
    s!"call {call} passes {count} arguments; only {limit} register arguments are supported"
  | floatInst opcode value =>
    s!"floating-point instruction {Text.opcode opcode} ({value})"
  | floatConstant value => s!"floating-point constant {value}"
  | aggregateOperand value =>
    s!"aggregate constant {value} used as an instruction operand"

/-- Why memory could not be had. -/
def Allocation.text : Allocation → String
  | capacity => "memory allocation failed because the computed capacity exceeded the " ++
      "collection's maximum"
  | exhausted => "memory allocation failed because the memory allocator returned an error"

def Overflow.text : Overflow → String
  | add => "add with overflow"
  | mul => "multiply with overflow"

/-- The invariant that was broken. -/
def Violation.text : Violation → String
  | danglingValue id => s!"dangling value id {id}"
  | danglingInst id => s!"dangling instruction id {id}"
  | danglingBlock id => s!"dangling block id {id}"
  | danglingFunction id => s!"dangling function id {id}"
  | danglingGlobal id => s!"dangling global id {id}"
  | notABlock value kind => s!"{value} is not a block reference: {Text.valueKind kind}"
  | malformedPhi value => s!"{value} is not a well-formed phi"
  | notAPhi value => s!"{value} is not a phi"
  | externalBody function => s!"cannot add blocks to external function {function}"
  | missingParameter func index => s!"{func} has no parameter {index}"
  | unpositioned => "builder is not positioned in a block"
  | notCallable callee => s!"call through non-function value {callee}"
  | badScale scale => s!"memory operand scale {scale.toNat} is not 1, 2, 4 or 8"
  | misfit op operands =>
    s!"operands {Text.sequence (operands.map Text.operand)} do not fit {op.mnemonic}"
  | sealed function => s!"machine function {function} is sealed"
  | danglingOperand id function => s!"dangling operand {id} in {function}"
  | notARegister id operand => s!"{id} ({Text.operand operand}) is not a register"
  | appendedTwice block function => s!"{block} appended twice to {function}"
  | danglingMachineBlock block function => s!"dangling block {block} in {function}"
  | unsealed function => s!"machine function {function} added before it was sealed"
  | danglingMachineFunction id => s!"dangling machine function {id}"
  | relocationOutside offset length image =>
    s!"relocation at {offset.toNat} lies outside the {length} bytes of {image}"
  | usedBeforeLowered value inst function =>
    s!"{value} ({inst}) used before it was lowered in {function}"
  | foreignArgument value owner function =>
    s!"argument {value} of {owner} used in {function}"
  | missingArgument function index => s!"{function} has no argument {index.toNat}"
  | noFunction => "no function is being lowered"
  | noInsertionBlock function => s!"no insertion block in {function}"
  | loweredTwice value function => s!"{value} lowered twice in {function}"
  | foreignBlock block function => s!"{block} does not belong to {function}"
  | phiWithoutRegister phi => s!"phi {phi} has no register"
  | phiFromUnlowered phi pred => s!"phi {phi} names {pred}, which was never lowered"
  | bytesTooLong length size value =>
    s!"{length} bytes do not fit a {size.toNat}-byte {value}"
  | notAnInitializer value kind =>
    s!"{value} is not a constant initializer: {Text.valueKind kind}"
  | memberCount value members fields =>
    s!"{value} has {members} members for {fields} fields"
  | elementCount value elements length =>
    s!"{value} has {elements} elements for length {length.toNat}"
  | notAnAggregate value ty => s!"aggregate {value} has non-aggregate type {Text.ty ty}"
  | overrun length stop => s!"initializer overruns its slot ({length} > {stop.toNat})"
  | notBinary opcode value => s!"{Text.opcode opcode} {value} takes two operands"
  | notUnary opcode value => s!"{Text.opcode opcode} {value} takes one operand"
  | noSignExtension storage => s!"no sign extension into rdx for {storage}"
  | noCallee call => s!"call {call} has no callee"
  | malformedCondBr value => s!"condbr {value} takes three operands"
  | returnsFromVoid value function => s!"ret {value} returns a value from void {function}"
  | malformedRet value => s!"ret {value} takes at most one operand"
  | doesNotNarrow value source target =>
    s!"trunc {value} from {source} to {target} does not narrow"
  | doesNotWiden opcode value source target =>
    s!"{Text.opcode opcode} {value} from {source} to {target} does not widen"
  | noBasePointer gep => s!"gep {gep} has no base pointer"
  | variableField gep => s!"gep {gep} indexes a struct with a non-constant"
  | fieldOutOfRange gep field => s!"gep {gep} field {field.toInt} out of range"
  | gepOverflow gep => s!"gep {gep} offset overflows"
  | notIndexable gep ty => s!"gep {gep} steps into non-aggregate {Text.ty ty}"
  | narrowIndex index => s!"memory index {index} is narrower than 64 bits"
  | allocaNotPointer value => s!"alloca {value} does not produce a pointer"
  | allocaVariable value => s!"alloca {value} has a non-constant element count"
  | malformedAlloca value => s!"alloca {value} takes at most one operand"
  | allocaNegative value count => s!"alloca {value} of {count.toInt} elements"

namespace Failure

def cause : Failure → String
  | .unsupported what => what.text
  | .allocation why => why.text
  | .generic text => text
  | .violation broken => broken.text
  | .overflow operation => operation.text
  | .indentation => "out of range"

/-- The whole diagnostic. -/
def message (f : Failure) : String := f.family.message f.cause

end Failure

end InstSelect
