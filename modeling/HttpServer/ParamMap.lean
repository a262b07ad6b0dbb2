import Mathlib.Data.Finmap
import HttpServer.Lib.StdString

/-!
# Command-line parameters

`ParamMap` (param_map.cpp) reads arguments of the form
`--<name>[=<value>]` into a map from names to values. An exception out of
`substr` is no result; there is none (`parseLoop_reads`).

The check for a missing name looks at the position of `=` and so finds it
missing in `--=<value>` only: the argument `--` sets the parameter with the
empty name (`parseArgv_correct_iff`).
-/

namespace HttpServer

abbrev Bytes := List UInt8

structure ParamMap where
  keyToValueMap : Finmap fun _ : Bytes => Bytes
  keyToDescriptionMap : Finmap fun _ : Bytes => Bytes
  programName : Bytes

namespace ParamMap

open StdString

/-- `"--"`. -/
def dashes : Bytes := [45, 45]

/-- `'='`. -/
def equals : UInt8 := 61

/-- `"help"`. -/
def help : Bytes := [104, 101, 108, 112]

/-- `"prints the command usage message"`. -/
def helpDescription : Bytes :=
  [112, 114, 105, 110, 116, 115, 32, 116, 104, 101, 32, 99, 111, 109, 109, 97, 110, 100, 32, 117,
    115, 97, 103, 101, 32, 109, 101, 115, 115, 97, 103, 101]

def addParam (m : ParamMap) (param defaultString description : Bytes) : ParamMap × Bool :=
  if param ∈ m.keyToValueMap then (m, false)
  else
    ({ m with
      keyToValueMap := m.keyToValueMap.insert param defaultString
      keyToDescriptionMap :=
        if param ∈ m.keyToDescriptionMap then m.keyToDescriptionMap
        else m.keyToDescriptionMap.insert param description }, true)

/-- The constructor. -/
def new : ParamMap := (addParam ⟨∅, ∅, []⟩ help [] helpDescription).1

/-- The result, and `*value` if there is one. -/
def getParam (m : ParamMap) (param : Bytes) (value : Option Bytes) : Bool × Option Bytes :=
  match m.keyToValueMap.lookup param with
  | some v => (true, value.map fun _ => v)
  | none => (false, value)

/-- `key_to_value_map_[name] = value`. -/
def set (m : ParamMap) (name value : Bytes) : ParamMap :=
  { m with keyToValueMap := m.keyToValueMap.insert name value }

/-- The loop of `parseArgv`. -/
def parseLoop : List Bytes → ParamMap → Option (ParamMap × Bool)
  | [], m => some (m, true)
  | param :: params, m =>
      -- param must start with "--"
      if find dashes param ≠ some 0 then some (m, false)
      else
        -- param must have a name
        let pos := find [equals] param
        if pos = some 2 then some (m, false)
        else do
          let (name, value) ←
            match pos with
            | none => do
                let name ← substr param 2 none
                some (name, [])
            | some pos => do
                let name ← substr param 2 (some (pos - 2))
                let value ← substr param (pos + 1) none
                some (name, value)
          if name = help then some (m, false) else parseLoop params (m.set name value)

/-- `argv` is the name of the program and the arguments. -/
def parseArgv (m : ParamMap) (program : Bytes) (args : List Bytes) : Option (ParamMap × Bool) :=
  parseLoop args { m with programName := program }

/-! ## The grammar -/

/-- The argument `arg` gives `value` to `name`. -/
def Reads (arg name value : Bytes) : Prop :=
  equals ∉ name ∧ (arg = dashes ++ name ∧ value = [] ∨ arg = dashes ++ name ++ equals :: value)

/-- `--<name>[=<value>]`, but not `--help`. -/
def InGrammar (arg : Bytes) : Prop :=
  ∃ name value, Reads arg name value ∧ name ≠ [] ∧ name ≠ help

/-- `m'` has what the arguments give: of a name that is given its last
value, and of the others what `m` has. -/
structure Updated (m m' : ParamMap) (args : List Bytes) : Prop where
  given : ∀ pre arg post name value, args = pre ++ arg :: post → Reads arg name value →
    (∀ b ∈ post, ∀ v, ¬Reads b name v) → ∀ v, m'.getParam name (some v) = (true, some value)
  others : ∀ name, (∀ arg ∈ args, ∀ v, ¬Reads arg name v) →
    ∀ value, m'.getParam name value = m.getParam name value

variable {m m' : ParamMap} {arg name name' value value' : Bytes} {args : List Bytes}

theorem exists_reads (h : dashes <+: arg) : ∃ name value, Reads arg name value := by
  obtain ⟨rest, rfl⟩ := h
  by_cases hmem : equals ∈ rest
  · obtain ⟨name, value, rfl, hnot⟩ := List.eq_append_cons_of_mem hmem
    exact ⟨name, value, hnot, .inr (by simp)⟩
  · exact ⟨rest, [], hmem, .inl ⟨rfl, rfl⟩⟩

theorem Reads.starts (h : Reads arg name value) : dashes <+: arg := by
  rcases h.2 with ⟨rfl, -⟩ | rfl
  · exact List.prefix_append ..
  · rw [List.append_assoc]
    exact List.prefix_append ..

theorem notMem_dashes (h : equals ∉ name) : equals ∉ dashes ++ name := by
  rw [List.mem_append, not_or]
  exact ⟨by decide, h⟩

/-- Where the loop finds `=`. -/
theorem Reads.find_equals (h : Reads arg name value) :
    arg = dashes ++ name ∧ value = [] ∧ find [equals] arg = none
      ∨ arg = dashes ++ name ++ equals :: value
        ∧ find [equals] arg = some (name.length + 2) := by
  obtain ⟨hnot, ⟨rfl, rfl⟩ | rfl⟩ := h
  · exact .inl ⟨rfl, rfl, find_of_notMem (notMem_dashes hnot)⟩
  · refine .inr ⟨rfl, (find_append_cons (notMem_dashes hnot)).trans ?_⟩
    rw [List.length_append, Nat.add_comm]
    rfl

/-- An argument is read in one way. -/
theorem Reads.unique (h : Reads arg name value) (h' : Reads arg name' value') :
    name = name' ∧ value = value' := by
  rcases h.find_equals with ⟨harg, hval, hfind⟩ | ⟨harg, hfind⟩
  · rcases h'.find_equals with ⟨harg', hval', -⟩ | ⟨-, hfind'⟩
    · exact ⟨List.append_cancel_left (harg.symm.trans harg'), hval.trans hval'.symm⟩
    · cases hfind.symm.trans hfind'
  · rcases h'.find_equals with ⟨-, -, hfind'⟩ | ⟨harg', hfind'⟩
    · cases hfind.symm.trans hfind'
    · have hlen : name.length = name'.length := by
        have := Option.some.inj (hfind.symm.trans hfind')
        omega
      have heq := harg.symm.trans harg'
      rw [List.append_assoc, List.append_assoc] at heq
      obtain ⟨hname, hvalue⟩ := List.append_inj (List.append_cancel_left heq) hlen
      exact ⟨hname, (List.cons.inj hvalue).2⟩

/-! ## The loop -/

/-- An argument without `--`. -/
theorem parseLoop_of_not_dashes (h : ¬dashes <+: arg) :
    parseLoop (arg :: args) m = some (m, false) := by
  rw [parseLoop, if_pos (mt find_eq_zero.mp h)]

/-- What the loop does with an argument. -/
theorem parseLoop_reads (h : Reads arg name value) : parseLoop (arg :: args) m
    = if name = [] ∧ arg ≠ dashes ∨ name = help then some (m, false)
      else parseLoop args (m.set name value) := by
  rw [parseLoop, if_neg (not_not.mpr (find_eq_zero.mpr h.starts))]
  rcases h.find_equals with ⟨rfl, rfl, hfind⟩ | ⟨rfl, hfind⟩
  · have hname : substr (dashes ++ name) 2 none = some name :=
      substr_append_left dashes name
    simp [hfind, hname]
  · have hname : substr (dashes ++ name ++ equals :: value) 2 (some name.length)
        = some name := substr_append_middle dashes name _
    have hvalue : substr (dashes ++ name ++ equals :: value) (name.length + 2 + 1) none
        = some value := by
      have hlen : (dashes ++ name ++ [equals]).length = name.length + 2 + 1 := by
        simp [dashes]
      have hsub := substr_append_left (dashes ++ name ++ [equals]) value
      rw [hlen, List.append_assoc _ [equals]] at hsub
      exact hsub
    have hlong : dashes ++ name ++ equals :: value ≠ dashes := by
      simp
    by_cases hempty : name = []
    · subst hempty
      exact (if_pos hfind).trans (if_pos (.inl ⟨rfl, hlong⟩)).symm
    · have hpos : ¬(name.length + 2 = 2) := by simpa using hempty
      simp only [hfind, hname, hvalue, Nat.add_sub_cancel, Option.some.injEq, hpos, if_false,
        Option.bind_eq_bind, Option.bind_some, hempty, false_and, false_or]

@[simp] theorem getParam_set (n : Bytes) (v : Option Bytes) : (m.set name value).getParam n v
    = if n = name then (true, v.map fun _ => value) else m.getParam n v := by
  by_cases h : n = name
  · rw [if_pos h, h, getParam, set, Finmap.lookup_insert]
  · simp [getParam, set, h, Finmap.lookup_insert_of_ne]

/-! ## The result -/

theorem Updated.refl : Updated m m [] where
  given pre _ _ _ _ h := by
    cases pre <;> cases h
  others _ _ _ := rfl

theorem Updated.cons (hreads : Reads arg name value) (h : Updated (m.set name value) m' args) :
    Updated m m' (arg :: args) where
  given pre b post n w heq hb hlast v := by
    cases pre with
    | nil =>
        -- the last argument with this name is the first argument
        obtain ⟨rfl, rfl⟩ := List.cons.inj heq
        obtain ⟨rfl, rfl⟩ := hreads.unique hb
        rw [h.others name hlast, getParam_set, if_pos rfl]
        rfl
    | cons a pre => exact h.given pre b post n w (List.cons.inj heq).2 hb hlast v
  others n hnone v := by
    have hne : n ≠ name := by
      rintro rfl
      exact hnone arg (List.mem_cons_self ..) value hreads
    rw [h.others n fun b hb => hnone b (List.mem_cons_of_mem _ hb), getParam_set, if_neg hne]

theorem reads_dashes : Reads dashes [] [] := ⟨List.not_mem_nil, .inl ⟨rfl, rfl⟩⟩

theorem not_inGrammar_dashes : ¬InGrammar dashes := by
  rintro ⟨name, value, hreads, hne, -⟩
  exact hne (hreads.unique reads_dashes).1

/-- The arguments that the loop goes over. -/
theorem passes_iff (h : Reads arg name value) :
    arg = dashes ∨ InGrammar arg ↔ ¬(name = [] ∧ arg ≠ dashes ∨ name = help) := by
  constructor
  · rintro (rfl | ⟨n, v, hn, hne, hhelp⟩)
    · obtain ⟨rfl, -⟩ := h.unique reads_dashes
      decide
    · obtain ⟨rfl, -⟩ := h.unique hn
      rintro (⟨hnil, -⟩ | hname)
      · exact hne hnil
      · exact hhelp hname
  · intro hpass
    rw [not_or, not_and, not_not] at hpass
    obtain ⟨hempty, hhelp⟩ := hpass
    by_cases hname : name = []
    · exact .inl (hempty hname)
    · exact .inr ⟨name, value, h, hname, hhelp⟩

/-- The loop on any arguments: it throws nothing, and it refuses what is not
in the grammar, `--` apart. -/
theorem parseLoop_spec (args : List Bytes) (m : ParamMap) :
    ∃ m' accepted, parseLoop args m = some (m', accepted)
      ∧ (accepted = true ↔ ∀ a ∈ args, a = dashes ∨ InGrammar a)
      ∧ (accepted = true → Updated m m' args) := by
  induction args generalizing m with
  | nil => exact ⟨m, true, rfl, by simp, fun _ => .refl⟩
  | cons arg args ih =>
      by_cases hstarts : dashes <+: arg
      · obtain ⟨name, value, hreads⟩ := exists_reads hstarts
        rw [parseLoop_reads hreads, List.forall_mem_cons, passes_iff hreads]
        split_ifs with hbad
        · exact ⟨m, false, rfl, by simp [hbad], nofun⟩
        · obtain ⟨m', accepted, hloop, haccepted, hupdated⟩ := ih (m.set name value)
          refine ⟨m', accepted, hloop, ?_, fun h => .cons hreads (hupdated h)⟩
          rw [haccepted, and_iff_right hbad]
      · refine ⟨m, false, parseLoop_of_not_dashes hstarts, ?_, nofun⟩
        rw [List.forall_mem_cons]
        refine iff_of_false Bool.false_ne_true ?_
        rintro ⟨rfl | ⟨name, value, hreads, -⟩, -⟩
        · exact hstarts (List.prefix_refl _)
        · exact hstarts hreads.starts

/-- `parseArgv` does what the command line asks for, unless `--` is an
argument and it is the only one that is not in the grammar. -/
theorem parseArgv_correct_iff (m : ParamMap) (program : Bytes) (args : List Bytes) :
    (∃ m' accepted, m.parseArgv program args = some (m', accepted)
        ∧ (accepted = true ↔ ∀ a ∈ args, InGrammar a)
        ∧ (accepted = true → Updated m m' args))
      ↔ ¬(dashes ∈ args ∧ ∀ a ∈ args, a = dashes ∨ InGrammar a) := by
  obtain ⟨m', accepted, hloop, haccepted, hupdated⟩ :=
    parseLoop_spec args { m with programName := program }
  constructor
  · rintro ⟨m₂, accepted₂, hparse, hgrammar, -⟩ ⟨hmem, hall⟩
    obtain ⟨-, rfl⟩ := Prod.mk.inj (Option.some.inj (hloop.symm.trans hparse))
    exact not_inGrammar_dashes (hgrammar.mp (haccepted.mpr hall) dashes hmem)
  · intro hcond
    refine ⟨m', accepted, hloop, haccepted.trans ⟨fun hall a ha => ?_, fun hall a ha => ?_⟩,
      fun h => ⟨(hupdated h).given, (hupdated h).others⟩⟩
    · refine (hall a ha).resolve_left ?_
      rintro rfl
      exact hcond ⟨ha, hall⟩
    · exact .inr (hall a ha)

/-- The argument `--` is taken, and sets the parameter with no name. -/
theorem parseArgv_dashes : ¬∃ m' accepted,
    new.parseArgv [] [dashes] = some (m', accepted)
      ∧ (accepted = true ↔ ∀ a ∈ [dashes], InGrammar a)
      ∧ (accepted = true → Updated new m' [dashes]) := by
  rintro ⟨m', accepted, hparse, hgrammar, -⟩
  have hno : ¬(([] : Bytes) = [] ∧ dashes ≠ dashes ∨ ([] : Bytes) = help) := by decide
  rw [parseArgv, parseLoop_reads reads_dashes, if_neg hno] at hparse
  obtain ⟨-, rfl⟩ := Prod.mk.inj (Option.some.inj hparse)
  exact not_inGrammar_dashes (hgrammar.mp rfl dashes (List.mem_cons_self ..))

end ParamMap

end HttpServer
