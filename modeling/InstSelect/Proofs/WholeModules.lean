import InstSelect.Proofs.ArenaContents
import InstSelect.Proofs.DataImages
import InstSelect.Proofs.LinkedModules

/-!
# Whole modules

Lowering a module goes once over the globals and once over the functions, each in
declaration order, and writes one item at a time. So the globals of the program are the
images of the globals of the module, one by one, and its functions are the machine
functions of those source functions that are not skipped. A function is skipped for its
name alone: a body does not save it.
-/

namespace InstSelect.IR.Module

/-! ## The nodes of a module by their ids -/

theorem forall₂_range_getElem? {α : Type} (xs : Array α) :
    List.Forall₂ (fun i x => xs[i]? = some x) (List.range xs.size) xs.toList := by
  refine List.forall₂_iff_get.mpr ⟨by simp, fun i hrange hlist => ?_⟩
  have hlt : i < xs.size := by simpa using hrange
  simp [hlt]

variable {m : Module}

theorem forall₂_functionIds (hsmall : m.functions.size ≤ 2 ^ 32) :
    List.Forall₂ (fun id f => m.function id = .ok f) m.functionIds
      m.functions.toList := by
  refine List.forall₂_map_left_iff.mpr ((forall₂_range_getElem? m.functions).imp
    fun i f hf => ?_)
  have hlt := (Array.getElem?_eq_some_iff.mp hf).1
  rw [function_eq_ok, UInt32.toNat_ofNat_of_lt' (by show i < 2 ^ 32; omega)]
  exact hf

theorem forall₂_globalIds (hsmall : m.globals.size ≤ 2 ^ 32) :
    List.Forall₂ (fun id g => m.global id = .ok g) m.globalIds m.globals.toList := by
  refine List.forall₂_map_left_iff.mpr ((forall₂_range_getElem? m.globals).imp
    fun i g hg => ?_)
  have hlt := (Array.getElem?_eq_some_iff.mp hg).1
  rw [global_eq_ok, UInt32.toNat_ofNat_of_lt' (by show i < 2 ^ 32; omega)]
  exact hg

end InstSelect.IR.Module

namespace InstSelect.Lowering

open Machine (Image Program)

variable {env : Env} {s s' : State} {u : Unit} {g : IR.Global} {image : Image}
  {α β : Type}

/-! ## The two loops -/

/-- A machine function that filling a source function gives. -/
def Emits (env : Env) (f : IR.Function) (m : Machine.Function) : Prop :=
  ∃ func s s', env.module.function func = .ok f ∧ Runs (fillFunction func f) env s m s'

theorem runs_lowerGlobal {gid : IR.GlobalId} :
    Runs (lowerGlobal gid) env s u s' ↔
      ∃ g image, env.module.global gid = .ok g ∧
        @imageOf env.allocator env.module env.abi g = .ok image ∧
        env.allocator.refusal? .global = none ∧
          s' = { s with output := s.output.pushGlobal image } := by
  simp only [lowerGlobal, Program.finishGlobal, runs_bind, runs_read, runs_get,
    runs_check, runs_modify, ask_eq_ok, bind_eq_ok, pure_eq_ok]
  constructor
  · rintro ⟨_, _, ⟨rfl, rfl⟩, g, _, ⟨hg, rfl⟩, image, _, ⟨himage, rfl⟩, _, _,
      ⟨rfl, rfl⟩, _, _, ⟨⟨_, hgrant, rfl⟩, rfl⟩, rfl⟩
    exact ⟨g, image, hg, himage, hgrant, rfl⟩
  · rintro ⟨g, image, hg, himage, hgrant, rfl⟩
    exact ⟨_, _, ⟨rfl, rfl⟩, g, _, ⟨hg, rfl⟩, image, _, ⟨himage, rfl⟩, _, _,
      ⟨rfl, rfl⟩, _, _, ⟨⟨(), hgrant, rfl⟩, rfl⟩, rfl⟩

theorem lowerGlobals_items {ids : List IR.GlobalId}
    (h : Runs (ids.forM lowerGlobal) env s u s') :
    ∃ gs images, List.Forall₂ (fun id g => env.module.global id = .ok g) ids gs ∧
      List.Forall₂ (fun g image => @imageOf env.allocator env.module env.abi g =
        .ok image) gs images ∧
      s'.output = { s.output with globals := s.output.globals ++ images } := by
  induction ids generalizing s with
  | nil =>
    obtain rfl := runs_forM_nil.mp h
    exact ⟨[], [], .nil, .nil, by simp⟩
  | cons id ids ih =>
    obtain ⟨t, hfirst, hrest⟩ := runs_forM_cons.mp h
    obtain ⟨g, image, hg, himage, -, rfl⟩ := runs_lowerGlobal.mp hfirst
    obtain ⟨gs, images, hgs, himages, hout⟩ := ih hrest
    refine ⟨g :: gs, image :: images, .cons hg hgs, .cons himage himages, ?_⟩
    rw [hout]
    simp [Program.pushGlobal]

/-- A function is skipped, or its machine function joins the program. -/
theorem lowerFunction_item {func : IR.FuncId} {r : Option Machine.FuncId}
    (h : Runs (lowerFunction func) env s r s') :
    ∃ f, env.module.function func = .ok f ∧
      (env.abi.isIntrinsic f.name = true ∧ s'.output = s.output ∨
        env.abi.isIntrinsic f.name = false ∧ ∃ m, Emits env f m ∧
          s'.output = { s.output with functions := s.output.functions ++ [m] }) := by
  have hstages := h
  simp only [lowerFunction, runs_bind, runs_sourceModule, runs_check,
    runs_theAbi] at hstages
  obtain ⟨_, _, ⟨rfl, rfl⟩, f, _, ⟨hf, rfl⟩, _, _, ⟨rfl, rfl⟩, hstages⟩ := hstages
  refine ⟨f, hf, ?_⟩
  cases hname : env.abi.isIntrinsic f.name with
  | true =>
    rw [hname] at hstages
    obtain ⟨-, rfl⟩ := runs_pure.mp hstages
    exact .inl ⟨rfl, rfl⟩
  | false =>
    have hfill := lowerFunction_by_fill hf hname s s
    rw [show lowerFunction func env s = .ok r s' from h] at hfill
    cases hrun : fillFunction func f env s with
    | error e rest =>
      rw [hrun] at hfill
      cases hfill
    | ok m rest =>
      rw [hrun] at hfill
      cases hgrant : env.allocator.refusal? .function with
      | some cause =>
        rw [hgrant] at hfill
        cases hfill
      | none =>
        rw [hgrant] at hfill
        cases hfill
        exact .inr ⟨rfl, m, ⟨func, s, rest, hf, hrun⟩, rfl⟩

theorem lowerFunctions_items {ids : List IR.FuncId}
    (h : Runs (ids.forM fun id => do let _ ← lowerFunction id) env s u s') :
    ∃ fs ms, List.Forall₂ (fun id f => env.module.function id = .ok f) ids fs ∧
      List.Forall₂ (Emits env) (fs.filter fun f => !env.abi.isIntrinsic f.name) ms ∧
      s'.output = { s.output with functions := s.output.functions ++ ms } := by
  induction ids generalizing s with
  | nil =>
    obtain rfl := runs_forM_nil.mp h
    exact ⟨[], [], .nil, .nil, by simp⟩
  | cons id ids ih =>
    obtain ⟨t, hstep, hrest⟩ := runs_forM_cons.mp h
    obtain ⟨r, t', hfirst, hpure⟩ := runs_bind.mp hstep
    obtain ⟨-, rfl⟩ := runs_pure.mp hpure
    obtain ⟨fs, ms, hfs, hms, hout⟩ := ih hrest
    obtain ⟨f, hf, ⟨hname, hsame⟩ | ⟨hname, m, hm, hjoin⟩⟩ := lowerFunction_item hfirst
    · refine ⟨f :: fs, ms, .cons hf hfs, ?_, by rw [hout, hsame]⟩
      rwa [List.filter_cons_of_neg (by simp [hname])]
    · refine ⟨f :: fs, m :: ms, .cons hf hfs, ?_, by rw [hout, hjoin]; simp⟩
      rw [List.filter_cons_of_pos (by simp [hname])]
      exact .cons hm hms

/-! ## Programs -/

section

variable {alloc : Machine.Allocator} {m : IR.Module} {abi : Abi} {p : Program}

/--
The globals and functions of a program are those of the module, in order, without the
skipped ones.
-/
theorem lowerModule_items (h : lowerModule m abi = .ok p) :
    ∃ gs fs, List.Forall₂ (fun id g => m.global id = .ok g) m.globalIds gs ∧
      List.Forall₂ (fun id f => m.function id = .ok f) m.functionIds fs ∧
      List.Forall₂ (fun g image => imageOf m abi g = .ok image) gs p.globals ∧
      List.Forall₂ (Emits ⟨m, abi⟩)
      (fs.filter fun f => !abi.isIntrinsic f.name) p.functions := by
  unfold lowerModule at h
  split at h
  · next u s hrun =>
    cases h
    have hall : Runs lowerAll ⟨m, abi⟩ (.initial m.name) u s := hrun
    simp only [lowerAll, runs_bind, runs_sourceModule] at hall
    obtain ⟨_, _, ⟨rfl, rfl⟩, _, t, hglobals, hfunctions⟩ := hall
    obtain ⟨gs, images, hgs, himages, hout⟩ := lowerGlobals_items hglobals
    obtain ⟨fs, ms, hfs, hms, hout'⟩ := lowerFunctions_items hfunctions
    refine ⟨gs, fs, hgs, hfs, ?_, ?_⟩
    · rw [hout', hout]
      exact himages
    · rw [hout', hout]
      exact hms
  · cases h

/-! ## Names -/

/-- The supply without a restriction. -/
theorem supply_true (env : Env) : Supply env (fun _ => True) fun _ => True where
  plain _ _ _ _ := trivial
  alike _ _ _ _ := trivial
  constant _ _ _ _ _ _ _ _ _ := trivial
  function _ _ _ _ _ := trivial
  global _ _ _ := trivial

theorem Emits.heads {f : IR.Function} {g : Machine.Function} (h : Emits env f g) :
    Heads f g := by
  obtain ⟨func, s, s', hf, hrun⟩ := h
  exact (fillFunction_contents (supply_true env) hf (fun _ _ => trivial)
    (fun _ _ _ _ _ => trivial) hrun).1

/--
An image is begun under the name of its global, and filled by the initializer or with
zeros.
-/
theorem imageOf_eq_ok (h : imageOf m abi g = .ok image) :
    ∃ align, (∃ init, appendConstant m abi g.ty init (.empty g.name align) = .ok image) ∨
      ∃ size r, (Image.empty g.name align).appendZeros size = .ok r ∧ r.2 = image := by
  have hzeros : ∀ align, (do
      let size ← Failure.ofWord g.ty.size
      pure (← (Image.empty g.name align).appendZeros size).2) = .ok image →
      ∃ size r, (Image.empty g.name align).appendZeros size = .ok r ∧ r.2 = image := by
    intro align h
    simp only [bind_eq_ok, pure_eq_ok] at h
    obtain ⟨size, -, r, hr⟩ := h
    exact ⟨size, r, hr⟩
  unfold imageOf at h
  cases hinit : g.initializer with
  | some init =>
    cases halign : g.alignment with
    | some align =>
      rw [hinit, halign] at h
      exact ⟨align, .inl ⟨init, h⟩⟩
    | none =>
      rw [hinit, halign] at h
      obtain ⟨align, -, h⟩ := bind_eq_ok.mp h
      exact ⟨align, .inl ⟨init, h⟩⟩
  | none =>
    cases halign : g.alignment with
    | some align =>
      rw [hinit, halign] at h
      exact ⟨align, .inr (hzeros align h)⟩
    | none =>
      rw [hinit, halign] at h
      obtain ⟨align, -, h⟩ := bind_eq_ok.mp h
      exact ⟨align, .inr (hzeros align h)⟩

theorem imageOf_name (h : imageOf m abi g = .ok image) : image.name = g.name := by
  have hempty : ∀ align, (Image.empty g.name align).Grows image →
      image.name = g.name := by
    rintro align ⟨-, _, _, happended⟩
    exact happended.name
  obtain ⟨align, ⟨init, hinit⟩ | ⟨size, r, hr, rfl⟩⟩ := imageOf_eq_ok h
  · exact hempty align (appendConstant_fills (Image.held_empty _ _) hinit).grows
  · exact hempty align (Image.appendZeros_eq_ok (Image.held_empty _ _) hr).1

/-- Items that correspond one by one have the same names in the same order. -/
theorem map_eq_of_forall₂ {γ : Type} {R : α → β → Prop} {f : α → γ} {g : β → γ}
    {xs : List α} {ys : List β} (h : List.Forall₂ R xs ys)
    (hname : ∀ x y, R x y → g y = f x) : ys.map g = xs.map f := by
  induction h with
  | nil => rfl
  | cons hfirst _ ih => rw [List.map_cons, List.map_cons, hname _ _ hfirst, ih]

/-- Items that correspond one by one: each one on the left has one on the right. -/
theorem exists_right_of_forall₂ {R : α → β → Prop} {xs : List α} {ys : List β} {x : α}
    (h : List.Forall₂ R xs ys) (hx : x ∈ xs) : ∃ y ∈ ys, R x y :=
  exists_left_of_forall₂ h.flip x hx

/-- Dropping fewer items leaves the same names only if it drops the same items. -/
theorem map_filter_eq_iff_of_imp {p q : α → Bool} (f : α → β) {xs : List α}
    (himp : ∀ x, p x = true → q x = true) :
    (xs.filter p).map f = (xs.filter q).map f ↔ ∀ x ∈ xs, q x = true → p x = true := by
  constructor
  · intro heq x hx hq
    have hsub : (xs.filter p).Sublist (xs.filter q) := List.monotone_filter_right xs himp
    have hlength : (xs.filter p).length = (xs.filter q).length := by
      simpa using congrArg List.length heq
    have hsame : xs.filter p = xs.filter q := hsub.eq_of_length hlength
    have hmem : x ∈ xs.filter p := hsame ▸ List.mem_filter.mpr ⟨hx, hq⟩
    exact (List.mem_filter.mp hmem).2
  · intro hall
    congr 1
    exact List.filter_congr fun x hx => Bool.eq_iff_iff.mpr ⟨himp x, hall x hx⟩

/-- A declaration of an intrinsic. -/
def declaresIntrinsic (abi : Abi) (f : IR.Function) : Bool :=
  f.isExternal && abi.isIntrinsic f.name

/--
The globals of a program are those of the module and its functions are those whose name is
not an intrinsic's, both in declaration order. So the external declarations of intrinsics
are the only functions left out exactly if no intrinsic's name is given to a function with
a body.
-/
theorem lowerModule_emits (hglobals : m.globals.size ≤ 2 ^ 32)
    (hfunctions : m.functions.size ≤ 2 ^ 32) (h : lowerModule m abi = .ok p) :
    p.globals.map (·.name) = m.globals.toList.map (·.name) ∧
    p.functions.map (·.name) =
      (m.functions.toList.filter fun f => !abi.isIntrinsic f.name).map (·.name) ∧
    (p.functions.map (·.name) =
      (m.functions.toList.filter fun f => !declaresIntrinsic abi f).map (·.name) ↔
      ∀ f ∈ m.functions, abi.isIntrinsic f.name = true → f.isExternal = true) := by
  obtain ⟨gs, fs, hgs, hfs, himages, hms⟩ := lowerModule_items h
  obtain rfl : gs = m.globals.toList :=
    Relator.RightUnique.forall₂
      (fun _ _ _ hg hg' => Except.ok.inj (hg.symm.trans hg')) hgs
      (IR.Module.forall₂_globalIds hglobals)
  obtain rfl : fs = m.functions.toList :=
    Relator.RightUnique.forall₂
      (fun _ _ _ hf hf' => Except.ok.inj (hf.symm.trans hf')) hfs
      (IR.Module.forall₂_functionIds hfunctions)
  have hnames :=
    map_eq_of_forall₂ (f := (·.name)) (g := (·.name)) hms fun f g hg => hg.heads.name
  refine ⟨map_eq_of_forall₂ himages fun g image => imageOf_name, hnames, ?_⟩
  rw [hnames, map_filter_eq_iff_of_imp _ fun f hf => by simp_all [declaresIntrinsic]]
  refine forall_congr' fun f => ?_
  cases hext : f.isExternal <;> cases hname : abi.isIntrinsic f.name <;>
    simp [declaresIntrinsic, hext, hname]

/-! ### A function under an intrinsic's name -/

/-- Whether a module is lowered to a program as tested. -/
def lowersTo [Machine.Allocator] (m : IR.Module) (abi : Abi) (test : Program → Bool) :
    Bool :=
  match lowerModule m abi with
  | .ok p => test p
  | .error _ => false

theorem exists_of_lowersTo {test : Program → Bool} (h : lowersTo m abi test = true) :
    ∃ p, lowerModule m abi = .ok p ∧ test p = true := by
  unfold lowersTo at h
  split at h
  · next p hp => exact ⟨p, hp, h⟩
  · cases h

end

/-- A module that defines `__builtin_clear` and `main`, both with a body. -/
def clearing : IR.Module where
  name := "m"
  values := #[⟨.ptr .void, .function ⟨0⟩⟩, ⟨.void, .block ⟨0⟩⟩, ⟨.void, .instruction ⟨0⟩⟩,
    ⟨.ptr .void, .function ⟨1⟩⟩, ⟨.void, .block ⟨1⟩⟩, ⟨.void, .instruction ⟨1⟩⟩]
  insts := #[⟨.ret, [], .void, ⟨0⟩, ⟨2⟩⟩, ⟨.ret, [], .void, ⟨1⟩, ⟨5⟩⟩]
  blocks := #[⟨⟨0⟩, none, [⟨0⟩], ⟨1⟩⟩, ⟨⟨1⟩, none, [⟨1⟩], ⟨4⟩⟩]
  functions := #[⟨"__builtin_clear", ⟨[], .void, false⟩, [], [⟨0⟩], false, ⟨0⟩⟩,
    ⟨"main", ⟨[], .void, false⟩, [], [⟨1⟩], false, ⟨3⟩⟩]
  globals := #[]

/-- The program has `main` only, and the condition for losing nothing fails. -/
theorem clearing_emits :
    ∃ p, lowerModule clearing .win64 = .ok p ∧ p.functions.map (·.name) = ["main"] ∧
      p.functions.map (·.name) ≠
        (clearing.functions.toList.filter fun f => !declaresIntrinsic .win64 f).map
          (·.name) := by
  obtain ⟨p, hp, -⟩ := exists_of_lowersTo
    (show lowersTo clearing .win64 (fun _ => true) = true by decide +kernel)
  obtain ⟨-, hnames, hlost⟩ := lowerModule_emits (by decide) (by decide) hp
  refine ⟨p, hp, hnames.trans (by decide), fun heq => ?_⟩
  have hexternal :=
    hlost.mp heq _ (show _ ∈ clearing.functions from Array.mem_of_getElem? (i := 0) rfl)
    (by decide)
  exact absurd hexternal (by decide)

/-- A function with a body is missing from the program although lowering succeeded. -/
theorem clearing_loses_body :
    ∃ p, lowerModule clearing .win64 = .ok p ∧
      ∃ f ∈ clearing.functions, f.isExternal = false ∧ f.blocks ≠ [] ∧
        f.name ∉ p.functions.map (·.name) := by
  obtain ⟨p, hp, hnames⟩ := exists_of_lowersTo
    (show lowersTo clearing .win64 (fun p => p.functions.map (·.name) = ["main"]) =
      true by decide +kernel)
  refine ⟨p, hp, _, Array.mem_of_getElem? (i := 0) rfl, rfl, by decide, ?_⟩
  rw [of_decide_eq_true hnames]
  decide

end InstSelect.Lowering
