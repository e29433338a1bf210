import InstSelect.Machine.Listing
import InstSelect.Proofs.Growth

/-!
# Machine functions under construction

A machine function is built by a sequence of operations on three shared arenas: operands,
blocks, and the layout. The shapes of an instruction's operands are checked once, when it
enters its block, and the block behind a label once, when the label is made; that both
stay true needs all later operations. `Change` says once what a successful operation can
do to a function. `Coherent` is what every change keeps, and `Develops` is what lies
between an earlier and a later state.
-/

namespace InstSelect.Machine

open Lowering (bind_eq_ok bind_eq_error pure_eq_ok operand_eq_ok yields exists_of_yields)

variable {i : Inst} {id : BlockId} {b : Block}

/-! ## Operations -/

/--
The operations that change a function, with their arguments. Look-ups leave it as it is.
-/
inductive Action
  | newVReg (storage : Storage)
  | physReg (reg : PhysReg) (storage : Storage)
  | stackSlot (size : UInt64) (align : UInt32)
  | symbol (name : String) (storage : Storage)
  | imm (value : Int64) (storage : Storage)
  | mem (address : Address) (storage : Storage)
  | blockRef (block : BlockId)
  | setArgs (args : List OperandId)
  | createBlock (name : String)
  | appendBlock (block : BlockId)
  | appendInst (block : BlockId) (op : Op) (operands : List OperandId)
  | insertBeforeTerminator (block : BlockId) (op : Op) (operands : List OperandId)
  | reserveCallStack (bytes : UInt32)
  | finish

/-- The function that an operation leaves. -/
def Action.apply [Allocator] (f : Function) : Action → Except Failure Function
  | newVReg storage => Prod.snd <$> f.newVReg storage
  | physReg reg storage => Prod.snd <$> f.physReg reg storage
  | stackSlot size align => Prod.snd <$> f.stackSlot size align
  | symbol name storage => Prod.snd <$> f.symbol name storage
  | imm value storage => Prod.snd <$> f.imm value storage
  | mem address storage => Prod.snd <$> f.mem address storage
  | blockRef block => Prod.snd <$> f.blockRef block
  | setArgs args => f.setArgs args
  | createBlock name => Prod.snd <$> f.createBlock name
  | appendBlock block => f.appendBlock block
  | appendInst block op operands => f.appendInst block op operands
  | insertBeforeTerminator block op operands => f.insertBeforeTerminator block op operands
  | reserveCallStack bytes => .ok (f.reserveCallStack bytes)
  | finish => f.finish

/-- The function that a sequence of operations leaves, if all of them succeed. -/
def Function.perform [Allocator] (f : Function) (actions : List Action) :
    Except Failure Function :=
  actions.foldlM Action.apply f

/-! ## What one operation can do -/

namespace Function

/--
An operand may enter the arena: registers and slots under the next number, labels of
blocks that exist.
-/
def Allows (f : Function) : Form → Prop
  | .virt r => r.index = f.nextVReg ∧ f.nextVReg.toNat + 1 < 2 ^ 32
  | .slot id _ _ => id.index = f.nextSlot ∧ f.nextSlot.toNat + 1 < 2 ^ 32
  | .label b => b.index.toNat < f.blocks.size
  | .phys _ | .symbol _ | .imm _ | .mem _ => True

/--
An instruction whose operands are in the arena and have shapes that its operation accepts.
-/
def Fits (f : Function) (i : Inst) : Prop :=
  ∃ os, f.Operands i.operands os ∧ i.op.accepts os = true

/-- The function with other instructions in an existing block. -/
def withInsts (f : Function) (id : BlockId) (b : Block) (insts : List Inst) : Function :=
  { f with blocks := f.blocks.setIfInBounds id.index.toNat { b with insts } }

end Function

/-- What a successful operation does to a function. -/
inductive Change (f : Function) : Function → Prop
  | operand (form : Form) (storage : Storage) (allowed : f.Allows form) :
      Change f (f.extend form storage)
  | args (args : List OperandId) : Change f { f with args }
  | created (name : String) : Change f (f.withBlock name)
  | laidOut {id : BlockId} (known : id.index.toNat < f.blocks.size)
      (new : id ∉ f.layout) :
      Change f { f with layout := f.layout ++ [id] }
  | inst {id : BlockId} {b : Block} {i : Inst} {before after : List Inst}
      (block : f.blocks[id.index.toNat]? = some b) (split : b.insts = before ++ after)
      (fits : f.Fits i) :
      Change f (f.withInsts id b (before ++ i :: after))
  | reserved (bytes : UInt32) : Change f (f.reserveCallStack bytes)
  | finished : Change f { f with isSealed := true }

section Operations

variable {alloc : Allocator} {f g : Function}

theorem map_snd_eq_ok {α β : Type} {x : Except Failure (α × β)} {b : β} :
    Prod.snd <$> x = .ok b ↔ ∃ a, x = .ok (a, b) := by
  cases x with
  | error e => simp [Functor.map, Except.map]
  | ok p =>
    obtain ⟨a, b'⟩ := p
    simp [Functor.map, Except.map]

/-- Operands that carry neither a number nor a label enter the arena as they are. -/
theorem Change.of_pushOperand (form : Form) {storage : Storage} (hallowed : f.Allows form)
    (hplain : f.extend form storage =
      { f with operands := f.operands.push ⟨form, storage⟩ })
    (h : Prod.snd <$> f.pushOperand form storage = .ok g) : Change f g := by
  obtain ⟨id, hpush⟩ := map_snd_eq_ok.mp h
  obtain ⟨-, -, -, rfl⟩ := Function.pushOperand_eq_ok.mp hpush
  rw [← hplain]
  exact .operand form storage hallowed

/-- Every operation that succeeds is one of the changes. -/
theorem Action.change {action : Action} (h : action.apply f = .ok g) : Change f g := by
  cases action with
  | newVReg storage =>
    obtain ⟨id, h⟩ := map_snd_eq_ok.mp h
    obtain ⟨-, -, hlt, -, rfl⟩ := Function.newVReg_eq_ok.mp h
    exact .operand (.virt ⟨f.nextVReg⟩) storage ⟨rfl, hlt⟩
  | stackSlot size align =>
    obtain ⟨id, h⟩ := map_snd_eq_ok.mp h
    obtain ⟨-, -, hlt, -, rfl⟩ := Function.stackSlot_eq_ok.mp h
    exact .operand (.slot ⟨f.nextSlot⟩ size align) .ptr ⟨rfl, hlt⟩
  | physReg reg storage => exact .of_pushOperand (.phys reg) trivial rfl h
  | symbol name storage => exact .of_pushOperand (.symbol name) trivial rfl h
  | imm value storage => exact .of_pushOperand (.imm value) trivial rfl h
  | mem address storage => exact .of_pushOperand (.mem address) trivial rfl h
  | blockRef block =>
    obtain ⟨id, h⟩ := map_snd_eq_ok.mp h
    obtain ⟨hknown, -, -, -, rfl⟩ := Function.blockRef_eq_ok.mp h
    exact .operand (.label block) .void hknown
  | setArgs args =>
    obtain ⟨_, -, h⟩ := bind_eq_ok.mp h
    cases pure_eq_ok.mp h
    exact .args args
  | createBlock name =>
    obtain ⟨id, h⟩ := map_snd_eq_ok.mp h
    obtain ⟨-, -, -, rfl⟩ := Function.createBlock_eq_ok.mp h
    exact .created name
  | appendBlock block =>
    obtain ⟨-, ⟨b, hb⟩, hnew, -, rfl⟩ := Function.appendBlock_eq_ok.mp h
    exact .laidOut (Array.getElem?_eq_some_iff.mp hb).1 hnew
  | appendInst block op operands =>
    obtain ⟨-, os, b, hos, haccepts, hb, -, rfl⟩ := Function.appendInst_eq_ok.mp h
    exact .inst hb (List.append_nil _).symm ⟨os, hos, haccepts⟩
  | insertBeforeTerminator block op operands =>
    obtain ⟨-, os, b, hos, haccepts, hb, -, rfl⟩ :=
      Function.insertBeforeTerminator_eq_ok.mp h
    exact .inst hb (List.takeWhile_append_dropWhile).symm ⟨os, hos, haccepts⟩
  | reserveCallStack bytes =>
    cases h
    exact .reserved bytes
  | finish =>
    obtain ⟨_, -, h⟩ := bind_eq_ok.mp h
    cases pure_eq_ok.mp h
    exact .finished

end Operations

/-! ## What every change keeps -/

/-- The number of an operand that is a virtual register. -/
def Operand.vregNumber? (o : Operand) : Option Nat :=
  match o.form with
  | .virt r => some r.index.toNat
  | _ => none

/-- The number of an operand that is a frame slot. -/
def Operand.slotNumber? (o : Operand) : Option Nat :=
  match o.form with
  | .slot id _ _ => some id.index.toNat
  | _ => none

/--
The operands that have a number have, in the order of the arena, those from 0 up to a
count.
-/
def Counted (number? : Operand → Option Nat) (operands : Array Operand) (count : UInt32) :
    Prop :=
  operands.toList.filterMap number? = List.range count.toNat

namespace Counted

variable {number? : Operand → Option Nat} {operands : Array Operand} {count : UInt32}
  {o : Operand}

theorem push_other (h : Counted number? operands count) (ho : number? o = none) :
    Counted number? (operands.push o) count := by
  unfold Counted at h ⊢
  rw [Array.toList_push, List.filterMap_append, h]
  simp [ho]

theorem push_next (h : Counted number? operands count) (ho : number? o = some count.toNat)
    (hlt : count.toNat + 1 < 2 ^ 32) : Counted number? (operands.push o) (count + 1) := by
  have hnext : (count + 1).toNat = count.toNat + 1 := by
    rw [UInt32.toNat_add]
    exact Nat.mod_eq_of_lt hlt
  unfold Counted at h ⊢
  rw [Array.toList_push, List.filterMap_append, h, hnext, List.range_succ]
  simp [ho]

end Counted

/--
Numbers without gaps, labels and layout of existing blocks, instructions with fitting
operands.
-/
structure Function.Coherent (f : Function) : Prop where
  vregs : Counted Operand.vregNumber? f.operands f.nextVReg
  slots : Counted Operand.slotNumber? f.operands f.nextSlot
  nodup : f.layout.Nodup
  layout : ∀ id ∈ f.layout, id.index.toNat < f.blocks.size
  labels : ∀ o ∈ f.operands, ∀ id, o.form = .label id → id.index.toNat < f.blocks.size
  /-- Also in blocks that the layout does not list. -/
  insts : ∀ b ∈ f.blocks, ∀ i ∈ b.insts, f.Fits i

/-- How a function may differ from an earlier state of it. -/
structure Function.Develops (f g : Function) : Prop where
  operands : f.operands.toList <+: g.operands.toList
  /--
  Blocks keep their names and instructions, in order; others may stand between them.
  -/
  blocks : ∀ (k : Nat) (b : Block), f.blocks[k]? = some b →
    ∃ b', g.blocks[k]? = some b' ∧ b'.name = b.name ∧ b.insts.Sublist b'.insts
  layout : f.layout <+: g.layout
  callStack : f.maxCallStack ≤ g.maxCallStack

namespace Function.Develops

variable {f g h : Function}

theorem refl (f : Function) : f.Develops f :=
  ⟨List.prefix_refl _, fun _ b hb => ⟨b, hb, rfl, List.Sublist.refl _⟩,
    List.prefix_refl _, UInt32.le_refl _⟩

theorem trans (hfg : f.Develops g) (hgh : g.Develops h) : f.Develops h where
  operands := hfg.operands.trans hgh.operands
  blocks := by
    intro k b hb
    obtain ⟨b', hb', hname, hinsts⟩ := hfg.blocks k b hb
    obtain ⟨b'', hb'', hname', hinsts'⟩ := hgh.blocks k b' hb'
    exact ⟨b'', hb'', hname'.trans hname, hinsts.trans hinsts'⟩
  layout := hfg.layout.trans hgh.layout
  callStack := UInt32.le_trans hfg.callStack hgh.callStack

end Function.Develops

section Changes

variable {f g : Function}

/--
A change only adds: to the arenas, to a block, to the layout or to the reserved stack.
-/
theorem Change.develops (h : Change f g) : f.Develops g := by
  cases h with
  | operand form storage _ =>
    refine { Function.Develops.refl f with operands := ?_ }
    show f.operands.toList <+: (f.operands.push _).toList
    rw [Array.toList_push]
    exact List.prefix_append _ _
  | args args => exact { Function.Develops.refl f with }
  | created name =>
    refine { Function.Develops.refl f with blocks := fun k b hb => ⟨b, ?_, rfl,
      List.Sublist.refl _⟩ }
    have hlt := (Array.getElem?_eq_some_iff.mp hb).1
    show (f.blocks.push _)[k]? = some b
    rw [Array.getElem?_push_lt hlt, ← Array.getElem?_eq_getElem hlt, hb]
  | laidOut _ _ =>
    exact { Function.Develops.refl f with layout := List.prefix_append _ _ }
  | @inst id b i before after hblock hsplit _ =>
    refine { Function.Develops.refl f with blocks := fun k b' hb' => ?_ }
    have hlt := (Array.getElem?_eq_some_iff.mp hblock).1
    by_cases hk : id.index.toNat = k
    · subst hk
      cases hblock.symm.trans hb'
      refine ⟨_, Array.getElem?_setIfInBounds_self_of_lt hlt, rfl, ?_⟩
      rw [hsplit]
      exact (List.Sublist.refl before).append (List.sublist_cons_self i after)
    · exact ⟨b', (Array.getElem?_setIfInBounds_ne hk).trans hb', rfl, List.Sublist.refl _⟩
  | reserved bytes =>
    refine { Function.Develops.refl f with callStack := ?_ }
    show f.maxCallStack ≤ if f.maxCallStack ≤ bytes then bytes else f.maxCallStack
    split
    · next hle => exact hle
    · exact UInt32.le_refl _
  | finished => exact { Function.Develops.refl f with }

theorem Function.Fits.mono (h : f.Fits i) (hg : f.operands.toList <+: g.operands.toList) :
    g.Fits i := by
  obtain ⟨os, hos, haccepts⟩ := h
  exact ⟨os, hos.imp fun _ _ ho => Function.getElem?_of_prefix hg ho, haccepts⟩

theorem Function.coherent_new (name : String) (ret : Storage) (argTypes : List Storage)
    (flags : Flags) :
    (Function.new name ret argTypes flags).Coherent where
  vregs := rfl
  slots := rfl
  nodup := List.nodup_nil
  layout := by simp [Function.new]
  labels := by simp [Function.new]
  insts := by simp [Function.new]

/-- A new operand takes the next number of its kind, or none. -/
theorem Function.Coherent.extend {form : Form} (hf : f.Coherent)
    (hallowed : f.Allows form)
    (storage : Storage) : (f.extend form storage).Coherent where
  vregs := by
    cases form with
    | virt r =>
      have hnumber : (⟨.virt r, storage⟩ : Operand).vregNumber? = some f.nextVReg.toNat :=
        congrArg (fun n : UInt32 => some n.toNat) hallowed.1
      exact hf.vregs.push_next hnumber hallowed.2
    | _ => exact hf.vregs.push_other rfl
  slots := by
    cases form with
    | slot id size align =>
      have hnumber : (⟨.slot id size align, storage⟩ : Operand).slotNumber? =
          some f.nextSlot.toNat :=
        congrArg (fun n : UInt32 => some n.toNat) hallowed.1
      exact hf.slots.push_next hnumber hallowed.2
    | _ => exact hf.slots.push_other rfl
  nodup := hf.nodup
  layout := hf.layout
  labels := by
    intro o ho id hid
    rcases Array.mem_push.mp ho with hold | rfl
    · exact hf.labels o hold id hid
    · cases hid
      exact hallowed
  insts := fun b hb i hi =>
    (hf.insts b hb i hi).mono (Change.operand form storage hallowed).develops.operands

/-- An instruction that fits may stand anywhere in a block. -/
theorem Function.Coherent.withInsts {before after : List Inst} (hf : f.Coherent)
    (hblock : f.blocks[id.index.toNat]? = some b) (hsplit : b.insts = before ++ after)
    (hfits : f.Fits i) : (f.withInsts id b (before ++ i :: after)).Coherent := by
  have hsize : (f.withInsts id b (before ++ i :: after)).blocks.size = f.blocks.size :=
    Array.size_setIfInBounds
  refine ⟨hf.vregs, hf.slots, hf.nodup, fun id hid => ?_, fun o ho id hid => ?_,
    fun b' hb' j hj => ?_⟩
  · rw [hsize]
    exact hf.layout id hid
  · rw [hsize]
    exact hf.labels o ho id hid
  · -- Operands are the same, so it is enough that the instruction fitted before.
    show f.Fits j
    rcases Array.mem_or_eq_of_mem_setIfInBounds hb' with hold | rfl
    · exact hf.insts b' hold j hj
    · have hold : ∀ j ∈ before ++ after, f.Fits j := fun j hj =>
        hf.insts b (Array.mem_of_getElem? hblock) j (hsplit ▸ hj)
      rcases List.mem_append.mp hj with hbefore | hrest
      · exact hold j (List.mem_append_left _ hbefore)
      · rcases List.mem_cons.mp hrest with rfl | hafter
        · exact hfits
        · exact hold j (List.mem_append_right _ hafter)

/-- Every change keeps a function coherent. -/
theorem Change.coherent (h : Change f g) (hf : f.Coherent) : g.Coherent := by
  cases h with
  | operand form storage hallowed => exact hf.extend hallowed storage
  | inst hblock hsplit hfits => exact hf.withInsts hblock hsplit hfits
  | args | reserved | finished => exact { hf with }
  | created name =>
    have hsize : (f.withBlock name).blocks.size = f.blocks.size + 1 := Array.size_push _
    refine { hf with
      layout := fun id hid => ?_
      labels := fun o ho id hid => ?_
      insts := fun b hb i hi => ?_ }
    · rw [hsize]
      exact Nat.lt_succ_of_lt (hf.layout id hid)
    · rw [hsize]
      exact Nat.lt_succ_of_lt (hf.labels o ho id hid)
    · rcases Array.mem_push.mp hb with hold | rfl
      · exact hf.insts b hold i hi
      · cases hi
  | @laidOut id hknown hnew =>
    refine { hf with nodup := ?_, layout := fun id' hid' => ?_ }
    · exact (List.perm_append_singleton _ _).nodup_iff.mpr
        (List.nodup_cons.mpr ⟨hnew, hf.nodup⟩)
    · rcases List.mem_append.mp hid' with hold | hlast
      · exact hf.layout id' hold
      · cases List.mem_singleton.mp hlast
        exact hknown

end Changes

/-! ## Printing -/

section Loops

variable {α β ε : Type} {step : α → Except ε β}

theorem exists_mapM_eq_ok {xs : List α} (h : ∀ x ∈ xs, ∃ y, step x = .ok y) :
    ∃ ys, xs.mapM step = .ok ys := by
  induction xs with
  | nil => exact ⟨[], rfl⟩
  | cons x xs ih =>
    obtain ⟨y, hy⟩ := h x List.mem_cons_self
    obtain ⟨ys, hys⟩ := ih fun z hz => h z (List.mem_cons_of_mem x hz)
    refine ⟨y :: ys, ?_⟩
    rw [List.mapM_cons]
    exact bind_eq_ok.mpr ⟨y, hy, bind_eq_ok.mpr ⟨ys, hys, rfl⟩⟩

/-- A loop that fails does so at one of its items. -/
theorem exists_of_mapM_eq_error {xs : List α} {e : ε} (h : xs.mapM step = .error e) :
    ∃ x ∈ xs, step x = .error e := by
  induction xs with
  | nil => cases h
  | cons x xs ih =>
    rw [List.mapM_cons] at h
    rcases bind_eq_error.mp h with hfirst | ⟨y, -, hrest⟩
    · exact ⟨x, List.mem_cons_self, hfirst⟩
    · rcases bind_eq_error.mp hrest with hrest | ⟨ys, -, hpure⟩
      · obtain ⟨z, hz, hfail⟩ := ih hrest
        exact ⟨z, List.mem_cons_of_mem x hz, hfail⟩
      · cases hpure

end Loops

theorem ListingStyle.line_eq_error {style : ListingStyle} {depth : Nat} {text : String}
    {e : Failure} (h : style.line depth text = .error e) : e = .indentation := by
  unfold line at h
  split at h
  · cases h
  · cases h
    rfl

namespace Function

/--
Printing the blocks of a function finds everything it looks up; only the margin can stop
it.
-/
structure Printable (f : Function) : Prop where
  blocks : ∃ blocks, f.layoutBlocks = .ok blocks
  /-- Also in blocks that the layout does not list. -/
  insts : ∀ b ∈ f.blocks, ∀ i ∈ b.insts, ∀ showTypes, ∃ text,
    f.instText showTypes i = .ok text
  lines : ∀ id ∈ f.layout, ∀ style depth,
    (depth + 1) * style.indent ≤ ListingStyle.widestIndent →
    ∃ lines, f.blockLines style depth id = .ok lines
  failures : ∀ id ∈ f.layout, ∀ style depth e, f.blockLines style depth id = .error e →
    e = .indentation

namespace Coherent

variable {f : Function}

/-- An operand of the arena has a text: only a label looks further, for its block. -/
theorem exists_operandText {id : OperandId} {o : Operand} (hf : f.Coherent)
    (ho : f.operands[id.index.toNat]? = some o) (showTypes : Bool) :
    ∃ text, f.operandText showTypes id = .ok text := by
  obtain ⟨form, storage⟩ := o
  cases form with
  | label block =>
    have hlt := hf.labels _ (Array.mem_of_getElem? ho) block rfl
    exact ⟨_, bind_eq_ok.mpr ⟨_, operand_eq_ok.mpr ho,
      bind_eq_ok.mpr ⟨_, block_eq_ok.mpr (Array.getElem?_eq_getElem hlt), rfl⟩⟩⟩
  | _ => exact ⟨_, bind_eq_ok.mpr ⟨_, operand_eq_ok.mpr ho, rfl⟩⟩

theorem exists_instText (hf : f.Coherent) (hb : b ∈ f.blocks) (hi : i ∈ b.insts)
    (showTypes : Bool) : ∃ text, f.instText showTypes i = .ok text := by
  obtain ⟨os, hos, -⟩ := hf.insts b hb i hi
  have htext : ∀ id ∈ i.operands, ∃ text, f.operandText showTypes id = .ok text := by
    intro id hid
    obtain ⟨o, -, ho⟩ := Lowering.exists_left_of_forall₂ hos.flip id hid
    exact hf.exists_operandText ho showTypes
  obtain ⟨texts, htexts⟩ := exists_mapM_eq_ok htext
  exact ⟨_, bind_eq_ok.mpr ⟨texts, htexts, rfl⟩⟩

theorem exists_block (hf : f.Coherent) (hid : id ∈ f.layout) :
    ∃ b ∈ f.blocks, f.block id = .ok b := by
  have hget := Array.getElem?_eq_getElem (hf.layout id hid)
  exact ⟨_, Array.mem_of_getElem? hget, block_eq_ok.mpr hget⟩

/-- A coherent function can be printed block by block. -/
theorem printable (hf : f.Coherent) : f.Printable where
  blocks := by
    refine exists_mapM_eq_ok fun id hid => ?_
    obtain ⟨b, -, hb⟩ := hf.exists_block hid
    exact ⟨(id, b), bind_eq_ok.mpr ⟨b, hb, rfl⟩⟩
  insts := fun b hb i hi showTypes => hf.exists_instText hb hi showTypes
  lines := by
    intro id hid style depth hfits
    obtain ⟨b, hmem, hb⟩ := hf.exists_block hid
    have hline : ∀ k ≤ depth + 1, ∀ text, ∃ line, style.line k text = .ok line := by
      intro k hk text
      have hle := Nat.le_trans (Nat.mul_le_mul_right style.indent hk) hfits
      exact ⟨⟨k * style.indent, text⟩, if_pos hle⟩
    obtain ⟨label, hlabel⟩ := hline depth (Nat.le_succ depth) (b.name ++ ":")
    have hinst : ∀ i ∈ b.insts, ∃ line, (do
        style.line (depth + 1) (← f.instText style.showTypes i)) = .ok line := by
      intro i hi
      obtain ⟨text, htext⟩ := hf.exists_instText hmem hi style.showTypes
      obtain ⟨line, hline⟩ := hline (depth + 1) (Nat.le_refl _) text
      exact ⟨line, bind_eq_ok.mpr ⟨text, htext, hline⟩⟩
    obtain ⟨insts, hinsts⟩ := exists_mapM_eq_ok hinst
    exact ⟨label :: insts, bind_eq_ok.mpr ⟨b, hb, bind_eq_ok.mpr ⟨label, hlabel,
      bind_eq_ok.mpr ⟨insts, hinsts, rfl⟩⟩⟩⟩
  failures := by
    intro id hid style depth e h
    obtain ⟨b, hmem, hb⟩ := hf.exists_block hid
    rcases bind_eq_error.mp h with hlost | ⟨b', hb', h⟩
    · cases hb.symm.trans hlost
    cases hb.symm.trans hb'
    rcases bind_eq_error.mp h with hlabel | ⟨label, -, h⟩
    · exact ListingStyle.line_eq_error hlabel
    rcases bind_eq_error.mp h with hinsts | ⟨insts, -, hpure⟩
    · obtain ⟨i, hi, hfail⟩ := exists_of_mapM_eq_error hinsts
      obtain ⟨text, htext⟩ := hf.exists_instText hmem hi style.showTypes
      rcases bind_eq_error.mp hfail with hlost | ⟨text', -, hline⟩
      · cases htext.symm.trans hlost
      · exact ListingStyle.line_eq_error hline
    · cases hpure

end Coherent

end Function

/-! ## Sequences of operations -/

section Runs

variable {alloc : Allocator} {f g : Function}

/--
What a sequence of operations keeps and what it adds, by induction over the sequence.
-/
theorem coherent_and_develops_of_perform {actions : List Action} (hf : f.Coherent)
    (h : f.perform actions = .ok g) : g.Coherent ∧ f.Develops g := by
  induction actions generalizing f with
  | nil =>
    cases h
    exact ⟨hf, .refl _⟩
  | cons action actions ih =>
    rw [Function.perform, List.foldlM_cons] at h
    obtain ⟨f', hstep, hrest⟩ := bind_eq_ok.mp h
    have hchange := Action.change hstep
    obtain ⟨hg, hdevelops⟩ := ih (hchange.coherent hf) hrest
    exact ⟨hg, hchange.develops.trans hdevelops⟩

/--
A function reached from an empty one by operations that all succeed is coherent: virtual
registers and frame slots are numbered 0, 1, … in the order of the arena, the layout lists
existing blocks once, labels name existing blocks, and all instructions of all blocks have
operands in the arena that fit them. Whatever follows, operands stay as they are, blocks
only gain instructions, and the reserved stack never shrinks. So its blocks can be printed
at any time.
-/
theorem perform_coherent {name : String} {ret : Storage} {argTypes : List Storage}
    {flags : Flags} {past future : List Action}
    (hpast : (Function.new name ret argTypes flags).perform past = .ok f)
    (hfuture : f.perform future = .ok g) : f.Coherent ∧ f.Develops g ∧ f.Printable := by
  have hf := (coherent_and_develops_of_perform
    (Function.coherent_new name ret argTypes flags) hpast).1
  exact ⟨hf, (coherent_and_develops_of_perform hf hfuture).2, hf.printable⟩

end Runs

/-! ### A copy placed in a finished block -/

/-- Two blocks, of which the first tests a register and jumps to the second either way. -/
def jumping : List Action :=
  [.createBlock "entry", .createBlock "exit", .appendBlock ⟨0⟩, .appendBlock ⟨1⟩,
    .blockRef ⟨1⟩, .newVReg .i8,
    .appendInst ⟨0⟩ .test [⟨1⟩, ⟨1⟩], .appendInst ⟨0⟩ (.jcc .e) [⟨0⟩],
    .appendInst ⟨0⟩ .jmp [⟨0⟩]]

/-- A constant copied before the jumps. -/
def copying : List Action :=
  [.newVReg .i32, .imm 1 .i32, .insertBeforeTerminator ⟨0⟩ .mov [⟨2⟩, ⟨3⟩],
    .reserveCallStack 32]

/--
The copy stands between the test and the jumps, and the block can be printed before and
after.
-/
theorem copying_coherent :
    ∃ f g, (Function.new "f" .i32 [] ⟨false, false⟩).perform jumping = .ok f ∧
      f.perform copying = .ok g ∧
      (g.blocks.toList.map fun b => b.insts.map (·.op)) =
        [[.test, .mov, .jcc .e, .jmp], []] ∧
      f.Coherent ∧ f.Develops g ∧ f.Printable := by
  obtain ⟨f, hf, htest⟩ := exists_of_yields
    (show yields ((Function.new "f" .i32 [] ⟨false, false⟩).perform jumping) (fun f =>
      yields (f.perform copying) fun g =>
        (g.blocks.toList.map fun b => b.insts.map (·.op)) =
          [[.test, .mov, .jcc .e, .jmp], []]) = true by
      decide +kernel)
  obtain ⟨g, hg, hops⟩ := exists_of_yields htest
  exact ⟨f, g, hf, hg, of_decide_eq_true hops, perform_coherent hf hg⟩

end InstSelect.Machine
