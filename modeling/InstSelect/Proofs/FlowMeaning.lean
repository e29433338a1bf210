import InstSelect.Proofs.IntegerSteps
import InstSelect.Proofs.SourceBlocks

/-!
# The meaning of branches and phis

Runs of source functions that only move words along the edges of their control flow.
Leaving a block by an edge gives all phis of the block behind it their words at once: each
reads its input for the edge in the results before the edge. A run goes on from block to
block until one of them returns.

A word that may still be read is `Live`. `KeepsLive` says that a phi of one successor of a
block is not live in another successor, unless the block hands it its own word back. Where
that holds, all phis behind a block can be given their words before it is known which way
the block is left.
-/

namespace InstSelect.IR

/--
The number of bits that count in a word of a type: the width of the class which holds it.
-/
def Ty.bits (ty : Ty) : Nat :=
  match Lowering.storageOf ty with
  | .ok st => st.width
  | .error _ => 0

theorem Ty.bits_eq {ty : Ty} {st : Machine.Storage} (h : Lowering.storageOf ty = .ok st) :
    ty.bits = st.width := by
  rw [bits, h]

/-- The pairs of input and predecessor of a phi. -/
def Inst.inputs (i : Inst) : List (ValueId × ValueId) := (pairs? i.operands).getD []

/-- How a block is left: for another block, or with a word that the function returns. -/
inductive Departure
  | goes (b : BlockId)
  | returns (x : BitVec 64)
deriving DecidableEq

namespace Module

variable (m : Module)

/-- The number of bits that count in the word of a value. -/
def bits (v : ValueId) : Nat :=
  match m.value v with
  | .ok data => data.ty.bits
  | .error _ => 0

/-- The block that a value refers to. -/
def target? (v : ValueId) : Option BlockId := (m.blockOf v).toOption

/-- The last instruction of a block. -/
def terminator? (b : BlockId) : Option Inst :=
  (m.instsOf b).getLast?.bind fun k => (m.inst k).toOption

/-- The blocks that a block may be left for. -/
def successors (b : BlockId) : List BlockId :=
  match m.terminator? b with
  | some ⟨.br, [x], _, _, _⟩ => (m.target? x).toList
  | some ⟨.condBr, [_, x, y], _, _, _⟩ => (m.target? x).toList ++ (m.target? y).toList
  | _ => []

def phis (b : BlockId) : List Inst :=
  ((m.instsOf b).filterMap fun k => (m.inst k).toOption).filter (·.opcode = .phi)

/-- The input of a phi for the edge from a block. -/
def input? (q : Inst) (p : BlockId) : Option ValueId :=
  (q.inputs.find? fun x => m.target? x.2 = some p).map Prod.fst

/-! ## Runs -/

section

variable (W : World) (ρ : Results)

def word? (v : ValueId) : Option (BitVec 64) := (m.leaf? W v).or (ρ v)

/-- How a block is left. -/
def depart? (b : BlockId) : Option Departure :=
  match m.terminator? b with
  | some ⟨.br, [x], _, _, _⟩ => (m.target? x).map .goes
  | some ⟨.condBr, [c, x, y], _, _, _⟩ => do
    let word ← m.word? W ρ c
    (m.target? (if word.setWidth (m.bits c) = 0 then y else x)).map .goes
  | some ⟨.ret, [v], _, _, _⟩ => (m.word? W ρ v).map .returns
  | _ => none

/-- The word that a phi gets on the edge from a block. -/
def incoming? (p : BlockId) (q : Inst) : Option (BitVec 64) :=
  (m.input? q p).bind (m.word? W ρ)

/-- The results behind the edge from one block to another: all phis change at once. -/
def cross? (p b : BlockId) : Option Results :=
  if (m.phis b).all fun q => (m.incoming? W ρ p q).isSome then
    some fun v =>
      match (m.phis b).find? (·.value = v) with
      | some q => m.incoming? W ρ p q
      | none => ρ v
  else none

/-- A run from a block, right behind its phis, returns a word. -/
inductive Returns : BlockId → Results → BitVec 64 → Prop
  | now {b : BlockId} {ρ : Results} {x : BitVec 64}
      (leave : m.depart? W ρ b = some (.returns x)) : Returns b ρ x
  | later {b c : BlockId} {ρ ρ' : Results} {x : BitVec 64}
      (leave : m.depart? W ρ b = some (.goes c)) (edge : m.cross? W ρ b c = some ρ')
      (rest : Returns c ρ' x) : Returns b ρ x

end

/-! ## Words that are still read -/

/--
The word that a value has at the beginning of a block, behind its phis, may still be read.
-/
inductive Live : BlockId → ValueId → Prop
  | used {b : BlockId} {i : Inst} {v : ValueId} (last : m.terminator? b = some i)
      (mem : v ∈ i.operands) : Live b v
  | input {b c : BlockId} {q : Inst} {v : ValueId} (edge : c ∈ m.successors b)
      (phi : q ∈ m.phis c) (live : Live c q.value)
      (source : m.input? q b = some v) : Live b v
  | through {b c : BlockId} {v : ValueId} (edge : c ∈ m.successors b) (live : Live c v)
      (other : ∀ q ∈ m.phis c, q.value ≠ v) : Live b v

/--
A phi of one successor of a block is not live in another successor, unless the block gives
it the word that it has already.
-/
def KeepsLive (f : Function) : Prop :=
  ∀ b ∈ f.blocks, ∀ c ∈ m.successors b, ∀ d ∈ m.successors b, c ≠ d → ∀ q ∈ m.phis d,
    m.input? q b = some q.value ∨ ¬ m.Live c q.value

/-- A table lists, for the blocks of a function, at least what is live there. -/
def boundsLive (f : Function) (table : BlockId → List ValueId) : Bool :=
  f.blocks.all fun b =>
    (m.terminator? b).all (fun i => i.operands.all (· ∈ table b)) &&
    (m.successors b).all fun c => c ∈ f.blocks &&
      (m.phis c).all (fun q => q.value ∉ table c || (m.input? q b).all (· ∈ table b)) &&
      (table c).all fun v => v ∈ table b || (m.phis c).any (·.value = v)

/-! ## Functions that only move words -/

/--
A value that needs no computation: an argument, an integer constant or a phi of the
function.
-/
inductive AtHand (f : Function) (v : ValueId) : Prop
  | argument (ty : Ty) (g : FuncId) (k : UInt32)
      (value : m.value v = .ok ⟨ty, .argument g k⟩)
  | constant (ty : Ty) (n : Int64) (value : m.value v = .ok ⟨ty, .constant (.int n)⟩)
  | phi (b : BlockId) (q : Inst) (block : b ∈ f.blocks) (phi : q ∈ m.phis b)
      (value : q.value = v)

/--
Blocks consist of phis and an instruction that leaves them, and phis have pairs for
predecessors.
-/
structure Shaped (f : Function) : Prop where
  body : ∀ b ∈ f.blocks, ∀ j ∈ (m.instsOf b).dropLast, ∃ q ∈ (m.inst j).toOption,
    q.opcode = .phi
  last : ∀ b ∈ f.blocks, ∃ i ∈ m.terminator? b, i.opcode.isTerminator = true
  distinct : ∀ b ∈ f.blocks, ∀ q ∈ m.phis b, (q.inputs.map fun x => m.target? x.2).Nodup
  predecessors : ∀ b ∈ f.blocks, ∀ q ∈ m.phis b, ∀ x ∈ q.inputs, ∀ p ∈ m.target? x.2,
    b ∈ m.successors p

/--
A function of phis, branches and returns only, over values that are at hand. Inputs are as
wide as their phi, and returned values as wide as what the function returns.
-/
structure MovesWords (f : Function) : Prop extends m.Shaped f where
  inputs : ∀ b ∈ f.blocks, ∀ q ∈ m.phis b, ∀ x ∈ q.inputs, m.AtHand f x.1 ∧
    m.bits x.1 = q.ty.bits
  conditions : ∀ b ∈ f.blocks, ∀ i ∈ m.terminator? b, i.opcode = .condBr →
    ∀ c ∈ i.operands.head?, m.AtHand f c
  returned : ∀ b ∈ f.blocks, ∀ i ∈ m.terminator? b, i.opcode = .ret →
    ∀ v ∈ i.operands, m.AtHand f v ∧ m.bits v = f.sig.ret.bits

variable {m} {W : World} {ρ ρ' : Results} {b c p : BlockId} {q : Inst} {v : ValueId}

/-- Arguments and integer constants. -/
def isPlain (m : Module) (v : ValueId) : Bool :=
  match m.value v with
  | .ok ⟨_, .argument _ _⟩ | .ok ⟨_, .constant (.int _)⟩ => true
  | _ => false

instance (f : Function) (v : ValueId) : Decidable (m.AtHand f v) :=
  decidable_of_iff (m.isPlain v = true ∨
    ∃ b ∈ f.blocks, ∃ q ∈ m.phis b, q.value = v) <| by
    unfold isPlain
    constructor
    · rintro (hplain | ⟨b, hb, q, hq, hv⟩)
      · split at hplain
        · next hv => exact .argument _ _ _ hv
        · next hv => exact .constant _ _ hv
        · cases hplain
      · exact .phi b q hb hq hv
    · rintro (⟨ty, g, k, hv⟩ | ⟨ty, n, hv⟩ | ⟨b, q, hb, hq, hv⟩)
      · simp [hv]
      · simp [hv]
      · exact .inr ⟨b, hb, q, hq, hv⟩

instance (f : Function) : Decidable (m.Shaped f) :=
  decidable_of_iff (_ ∧ _ ∧ _ ∧ _)
    ⟨fun ⟨h1, h2, h3, h4⟩ => ⟨h1, h2, h3, h4⟩,
    fun h => ⟨h.body, h.last, h.distinct, h.predecessors⟩⟩

instance (f : Function) : Decidable (m.MovesWords f) :=
  decidable_of_iff (m.Shaped f ∧ _ ∧ _ ∧ _)
    ⟨fun ⟨h1, h2, h3, h4⟩ => ⟨h1, h2, h3, h4⟩,
      fun h => ⟨h.toShaped, h.inputs, h.conditions, h.returned⟩⟩

theorem target?_eq_some : m.target? v = some b ↔ m.blockOf v = .ok b :=
  Lowering.toOption_eq_some

theorem mem_phis : q ∈ m.phis b ↔
    ∃ k ∈ m.instsOf b, m.inst k = .ok q ∧ q.opcode = .phi := by
  simp only [phis, List.mem_filter, List.mem_filterMap, Lowering.toOption_eq_some,
    decide_eq_true_eq]
  constructor
  · rintro ⟨⟨k, hk, hq⟩, hop⟩
    exact ⟨k, hk, hq, hop⟩
  · rintro ⟨k, hk, hq, hop⟩
    exact ⟨⟨k, hk, hq⟩, hop⟩

/-- In a linked module the value of a phi tells which phi it is. -/
theorem Linked.eq_of_value (hm : m.Linked) {q' : Inst} (hq : q ∈ m.phis b)
    (hq' : q' ∈ m.phis c) (h : q.value = q'.value) : q = q' := by
  obtain ⟨k, -, hk, -⟩ := mem_phis.mp hq
  obtain ⟨k', -, hk', -⟩ := mem_phis.mp hq'
  have hvalue := (hm.insts _ _ (inst_eq_ok.mp hk)).value
  have hvalue' := (hm.insts _ _ (inst_eq_ok.mp hk')).value
  rw [h, hvalue'] at hvalue
  simp only [Option.some.injEq, Value.mk.injEq, UInt32.ofNat_toNat,
    ValueKind.instruction.injEq] at hvalue
  obtain rfl : k' = k := hvalue.2
  exact Except.ok.inj (hk.symm.trans hk')

/-- An input is one of the pairs. -/
theorem mem_of_input? (h : m.input? q p = some v) : ∃ x ∈ q.inputs, x.1 = v ∧
    m.target? x.2 = some p := by
  obtain ⟨x, hx, rfl⟩ := Option.map_eq_some_iff.mp h
  have hp := List.find?_some hx
  exact ⟨x, List.mem_of_find?_eq_some hx, rfl, of_decide_eq_true hp⟩

/-- Where a phi has one pair for a block, this pair is the input. -/
theorem input?_of_mem (hdistinct : (q.inputs.map fun x => m.target? x.2).Nodup)
    {x : ValueId × ValueId} (hx : x ∈ q.inputs)
    (hp : m.target? x.2 = some p) : m.input? q p = some x.1 := by
  obtain ⟨y, hy⟩ := Option.isSome_iff_exists.mp
    (List.find?_isSome (p := fun x => decide (m.target? x.2 = some p)).mpr
      ⟨x, hx, decide_eq_true hp⟩)
  have hpy := List.find?_some hy
  have hxy := List.inj_on_of_nodup_map hdistinct (List.mem_of_find?_eq_some hy) hx
    ((of_decide_eq_true hpy).trans hp.symm)
  rw [input?, hy, hxy]
  rfl

/-! ## Tables of live values -/

section

variable {f : Function} {table : BlockId → List ValueId}

theorem boundsLive_iff : m.boundsLive f table = true ↔ ∀ b ∈ f.blocks,
    (∀ i, m.terminator? b = some i → ∀ v ∈ i.operands, v ∈ table b) ∧
    ∀ c ∈ m.successors b, (c ∈ f.blocks ∧
      ∀ q ∈ m.phis c, q.value ∉ table c ∨ ∀ v, m.input? q b = some v → v ∈ table b) ∧
      ∀ v ∈ table c, v ∈ table b ∨ ∃ q ∈ m.phis c, q.value = v := by
  simp only [boundsLive, List.all_eq_true, Bool.and_eq_true, Bool.or_eq_true,
    decide_eq_true_eq, Option.all_eq_true, List.any_eq_true]

theorem Live.mem_table (htable : m.boundsLive f table = true) (hlive : m.Live b v)
    (hb : b ∈ f.blocks) :
    v ∈ table b := by
  have htable := boundsLive_iff.mp htable
  induction hlive with
  | used last mem => exact (htable _ hb).1 _ last _ mem
  | input edge phi live source ih =>
    obtain ⟨⟨hc, hphis⟩, -⟩ := (htable _ hb).2 _ edge
    rcases hphis _ phi with hnot | hinput
    · exact absurd (ih hc) hnot
    · exact hinput _ source
  | through edge live other ih =>
    obtain ⟨⟨hc, -⟩, hrest⟩ := (htable _ hb).2 _ edge
    rcases hrest _ (ih hc) with hmem | ⟨q, hq, hvalue⟩
    · exact hmem
    · exact absurd hvalue (other q hq)

/-- That live words are kept can be seen from a table. -/
theorem keepsLive_of_table (htable : m.boundsLive f table = true)
    (hkeeps : ∀ b ∈ f.blocks, ∀ c ∈ m.successors b, ∀ d ∈ m.successors b, c ≠ d →
      ∀ q ∈ m.phis d,
      m.input? q b = some q.value ∨ q.value ∉ table c) : m.KeepsLive f := by
  intro b hb c hc d hd hne q hq
  have hmem : c ∈ f.blocks := ((boundsLive_iff.mp htable b hb).2 c hc).1.1
  exact (hkeeps b hb c hc d hd hne q hq).imp_right fun hnot hlive =>
    hnot (hlive.mem_table htable hmem)

end

/-! ## Results behind an edge -/

theorem find?_phis (hm : m.Linked) (hq : q ∈ m.phis b) :
    (m.phis b).find? (·.value = q.value) = some q := by
  obtain ⟨q', hq'⟩ := Option.isSome_iff_exists.mp
    (List.find?_isSome (p := fun x => decide (x.value = q.value)).mpr
      ⟨q, hq, decide_eq_true rfl⟩)
  have hvalue := List.find?_some hq'
  rw [hq', hm.eq_of_value (List.mem_of_find?_eq_some hq') hq (of_decide_eq_true hvalue)]

/--
The results behind an edge: phis have the words of their inputs, and all else is as it
was.
-/
theorem cross?_eq_some (hm : m.Linked) (h : m.cross? W ρ p b = some ρ') :
    (∀ q ∈ m.phis b, ∃ v x, m.input? q p = some v ∧ m.word? W ρ v = some x ∧
      ρ' q.value = some x) ∧
    ∀ v, (∀ q ∈ m.phis b, q.value ≠ v) → ρ' v = ρ v := by
  unfold cross? at h
  split at h
  · next hall =>
    cases h
    refine ⟨fun q hq => ?_, fun v hv => ?_⟩
    · obtain ⟨x, hx⟩ := Option.isSome_iff_exists.mp (List.all_eq_true.mp hall q hq)
      obtain ⟨v, hv, hword⟩ := Option.bind_eq_some_iff.mp hx
      refine ⟨v, x, hv, hword, ?_⟩
      simp only [find?_phis hm hq]
      exact hx
    · have hnone : (m.phis b).find? (·.value = v) = none :=
        List.find?_eq_none.mpr fun q hq heq => hv q hq (of_decide_eq_true heq)
      simp only [hnone]
  · cases h

/-! ## Ways to leave a block -/

/-- The way that an instruction goes from a block to another. -/
inductive Goes (m : Module) (W : World) (ρ : Results) (i : Inst) (c : BlockId) : Prop
  | br {x : ValueId} (opcode : i.opcode = .br) (operands : i.operands = [x])
      (target : m.target? x = some c)
  | condBr {v x y : ValueId} {word : BitVec 64} (opcode : i.opcode = .condBr)
      (operands : i.operands = [v, x, y]) (word_eq : m.word? W ρ v = some word)
      (target : m.target? (if word.setWidth (m.bits v) = 0 then y else x) = some c)

theorem depart?_goes (h : m.depart? W ρ b = some (.goes c)) :
    ∃ i, m.terminator? b = some i ∧ m.Goes W ρ i c ∧ c ∈ m.successors b := by
  unfold depart? at h
  unfold successors
  split at h
  · next x _ _ _ hlast =>
    obtain ⟨d, hd, heq⟩ := Option.map_eq_some_iff.mp h
    cases heq
    exact ⟨_, hlast, .br rfl rfl hd, by simp [hlast, hd]⟩
  · next v x y _ _ _ hlast =>
    obtain ⟨word, hword, h⟩ := Option.bind_eq_some_iff.mp h
    obtain ⟨d, hd, heq⟩ := Option.map_eq_some_iff.mp h
    cases heq
    refine ⟨_, hlast, .condBr rfl rfl hword hd, ?_⟩
    simp only [hlast, List.mem_append, Option.mem_toList]
    split at hd
    · exact .inr hd
    · exact .inl hd
  · next hlast =>
    obtain ⟨word, -, heq⟩ := Option.map_eq_some_iff.mp h
    cases heq
  · cases h

theorem depart?_returns {x : BitVec 64} (h : m.depart? W ρ b = some (.returns x)) :
    ∃ i v, m.terminator? b = some i ∧ i.opcode = .ret ∧ i.operands = [v] ∧
      m.word? W ρ v = some x := by
  unfold depart? at h
  split at h
  · obtain ⟨d, -, heq⟩ := Option.map_eq_some_iff.mp h
    cases heq
  · obtain ⟨word, -, h⟩ := Option.bind_eq_some_iff.mp h
    obtain ⟨d, -, heq⟩ := Option.map_eq_some_iff.mp h
    cases heq
  · next v _ _ _ hlast =>
    obtain ⟨word, hword, heq⟩ := Option.map_eq_some_iff.mp h
    cases heq
    exact ⟨_, v, hlast, rfl, rfl, hword⟩
  · cases h

end Module

end InstSelect.IR
