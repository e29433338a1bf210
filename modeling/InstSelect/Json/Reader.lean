import InstSelect.Json.Token

/-!
# Reading JSON text

A pushdown reader over tokens. Its state is the stack of containers that are still open
and what may come next; each token takes one step. Containers nested beyond a limit become
`unreadable`, as does an object with a key that has no text.
-/

namespace InstSelect.Json

/-- A container that is still open; finished parts come in reverse. -/
inductive Frame
  | arr (items : List Json)
  /--
  Members so far, `none` once a key had no text, and the key whose value is being read.
  -/
  | obj (members : Option (List (String × Json))) (key : Option String)

/-- What may come next. -/
inductive Expect
  /-- A value. -/
  | value
  /-- A value, or the end of the array. -/
  | valueOrEnd
  /-- A key. -/
  | key
  /-- A key, or the end of the object. -/
  | keyOrEnd
  /-- The colon after a key. -/
  | colon
  /-- A comma, or the end of the container. -/
  | commaOrEnd
  /-- Nothing: the text is complete. -/
  | nothing (result : Json)

structure ReaderState where
  stack : List Frame
  expect : Expect

namespace ReaderState

/-- Nothing read yet. -/
def initial : ReaderState := ⟨[], .value⟩

/-- Hands a finished value to the innermost open container. -/
def deliver (stack : List Frame) (value : Json) : ReaderState :=
  match stack with
  | [] => ⟨[], .nothing value⟩
  | .arr items :: outer => ⟨.arr (value :: items) :: outer, .commaOrEnd⟩
  | .obj members key :: outer =>
    let extended :=
      match members, key with
      | some done, some k => some ((k, value) :: done)
      | _, _ => none
    ⟨.obj extended none :: outer, .commaOrEnd⟩

/-- A closed container at a nesting depth. -/
def closed (limit : Nat) (level : Nat) (value : Option Json) : Json :=
  if limit < level then .unreadable else value.getD .unreadable

def step (limit : Nat) (s : ReaderState) (t : Token) : Option ReaderState :=
  match t, s.expect, s.stack with
  | .scalar v, .value, stack | .scalar v, .valueOrEnd, stack => some (deliver stack v)
  | .text v, .value, stack | .text v, .valueOrEnd, stack =>
    some (deliver stack (match v with | some text => .str text | none => .unreadable))
  | .openArr, .value, stack | .openArr, .valueOrEnd, stack =>
    some ⟨.arr [] :: stack, .valueOrEnd⟩
  | .openObj, .value, stack | .openObj, .valueOrEnd, stack =>
    some ⟨.obj (some []) none :: stack, .keyOrEnd⟩
  | .text k, .key, .obj members _ :: outer
  | .text k, .keyOrEnd, .obj members _ :: outer =>
    some ⟨.obj members k :: outer, .colon⟩
  | .colon, .colon, stack => some ⟨stack, .value⟩
  | .comma, .commaOrEnd, .arr items :: outer => some ⟨.arr items :: outer, .value⟩
  | .comma, .commaOrEnd, .obj members key :: outer =>
    some ⟨.obj members key :: outer, .key⟩
  | .closeArr, .commaOrEnd, .arr items :: outer
  | .closeArr, .valueOrEnd, .arr items :: outer =>
    some (deliver outer (closed limit (outer.length + 1) (some (.arr items.reverse))))
  | .closeObj, .commaOrEnd, .obj members _ :: outer
  | .closeObj, .keyOrEnd, .obj members _ :: outer =>
    some (deliver outer
      (closed limit (outer.length + 1) (members.map fun done => .obj done.reverse)))
  | _, _, _ => none

/-- The value read, if the text was complete. -/
def result? (s : ReaderState) : Option Json :=
  match s.expect with
  | .nothing value => some value
  | _ => none

end ReaderState

/-- Containers nested deeper than this are not read. -/
def depthLimit : Nat := 127

def parse (text : String) : Option Json := do
  let tokens ← tokens text
  let final ← tokens.foldlM (ReaderState.step depthLimit) ReaderState.initial
  final.result?

end InstSelect.Json
