import Lox.Native.Action
import Mathlib.Data.List.Basic

/-!
What native functions can tell of values: constants, and the text of anything else. So they answer
the same whatever scopes and references the functions among their arguments carry.
-/

namespace Lox

variable {ρ σ κ χ α β : Type}

/-- The value without routines, superclasses and methods. -/
def Value.bare : Value ρ κ → Value Unit Unit
  | .nil => .nil
  | .bool b => .bool b
  | .number x => .number x
  | .string s => .string s
  | .function id f => .function id ⟨f.name, ⟨⟨[], []⟩, ()⟩, f.initializer⟩
  | .lambda id _ _ => .lambda id 0 ⟨⟨[], []⟩, ()⟩
  | .class c => .class ⟨c.id, c.name, none, [], []⟩
  | .native n => .native n
  | .instance id c => .instance id ⟨c.id, c.name, none, [], []⟩
  | .file h => .file h

/-- A value without routines among the values of any kind; natives answer no other. -/
def Value.ofBare : Value Unit Unit → Value ρ κ
  | .bool b => .bool b
  | .number x => .number x
  | .string s => .string s
  | .file h => .file h
  | _ => .nil

@[simp] theorem Value.display_bare (v : Value ρ κ) : v.bare.display = v.display := by
  cases v <;> rfl

namespace Native

namespace Action

@[simp] theorem string_bare (argument : String) (v : Value ρ κ) :
    string argument v.bare = string argument v := by
  cases v <;> rfl

@[simp] theorem number_bare (argument : String) (v : Value ρ κ) :
    number argument v.bare = number argument v := by
  cases v <;> rfl

@[simp] theorem stream_bare (v : Value ρ κ) : stream v.bare = stream v := by
  cases v <;> rfl

@[simp] theorem openStream_bare (v : Value ρ κ) : openStream v.bare = openStream v := by
  simp only [openStream, stream_bare]

@[simp] theorem readable_bare (v : Value ρ κ) : readable v.bare = readable v := by
  simp only [readable, openStream_bare]

theorem input_bare : (input : Action (Value ρ κ)) = Value.ofBare <$> input := by
  simp only [input, map_bind]
  congr! with host _ _
  split
  · rfl
  · rfl
  · rfl
  · split <;> rfl

theorem fileExists_bare (path : Value ρ κ) :
    fileExists path = Value.ofBare <$> fileExists path.bare := by
  simp only [fileExists, string_bare, map_bind, map_pure, Value.ofBare]

theorem fileReadText_bare (path : Value ρ κ) :
    fileReadText path = Value.ofBare <$> fileReadText path.bare := by
  simp only [fileReadText, string_bare, map_bind]
  congr! with path _ fs
  split
  · rfl
  · simp only [map_bind]
    congr! with bytes
    split <;> rfl

theorem fileWriteText_bare (path text : Value ρ κ) :
    fileWriteText path text = Value.ofBare <$> fileWriteText path.bare text.bare := by
  simp only [fileWriteText, string_bare, Value.display_bare, map_bind, map_pure, Value.ofBare]

theorem fileOpen_bare (path mode : Value ρ κ) :
    fileOpen path mode = Value.ofBare <$> fileOpen path.bare mode.bare := by
  simp only [fileOpen, string_bare, number_bare, map_bind]
  congr! with path mode
  split
  · rfl
  · simp only [map_bind, map_pure, Value.ofBare]

theorem fileClose_bare (v : Value ρ κ) : fileClose v = Value.ofBare <$> fileClose v.bare := by
  simp only [fileClose, stream_bare, map_bind, map_pure, Value.ofBare]

theorem fileWrite_bare (v : Value ρ κ) (text : String) :
    fileWrite v text = Value.ofBare <$> fileWrite v.bare text := by
  simp only [fileWrite, openStream_bare, map_bind, map_pure, Value.ofBare]

theorem fileRead_bare (v : Value ρ κ) : fileRead v = Value.ofBare <$> fileRead v.bare := by
  simp only [fileRead, readable_bare, map_bind]
  congr! with handle fs
  split
  · rfl
  · simp only [map_bind]
    congr! with _
    split
    · rfl
    · split <;> rfl

theorem fileReadLine_bare (v : Value ρ κ) :
    fileReadLine v = Value.ofBare <$> fileReadLine v.bare := by
  simp only [fileReadLine, readable_bare, map_bind]
  congr! with handle fs
  split
  · rfl
  · simp only [map_bind]
    congr! with _
    split <;> rfl

theorem seekStart_bare (v : Value ρ κ) : seekStart v = Value.ofBare <$> seekStart v.bare := by
  simp only [seekStart, openStream_bare, map_bind, map_pure, Value.ofBare]

theorem seekEnd_bare (v : Value ρ κ) : seekEnd v = Value.ofBare <$> seekEnd v.bare := by
  simp only [seekEnd, openStream_bare, map_bind, map_pure, Value.ofBare]

end Action

theorem run_bare (n : Native) (arguments : List (Value ρ κ)) (h : arguments.length = n.arity)
    (h' : (arguments.map Value.bare).length = n.arity) :
    n.run arguments h = Value.ofBare <$> n.run (arguments.map Value.bare) h' := by
  cases n with
  | clock =>
    obtain rfl : arguments = [] := List.length_eq_zero_iff.mp h
    simp only [run, List.map, map_bind, map_pure, Value.ofBare]
  | input =>
    obtain rfl : arguments = [] := List.length_eq_zero_iff.mp h
    simpa only [run, List.map] using Action.input_bare
  | fileExists =>
    obtain ⟨v, rfl⟩ := List.length_eq_one_iff.mp h
    simpa only [run, List.map] using Action.fileExists_bare v
  | fileReadText =>
    obtain ⟨v, rfl⟩ := List.length_eq_one_iff.mp h
    simpa only [run, List.map] using Action.fileReadText_bare v
  | fileClose =>
    obtain ⟨v, rfl⟩ := List.length_eq_one_iff.mp h
    simpa only [run, List.map] using Action.fileClose_bare v
  | fileRead =>
    obtain ⟨v, rfl⟩ := List.length_eq_one_iff.mp h
    simpa only [run, List.map] using Action.fileRead_bare v
  | fileReadLine =>
    obtain ⟨v, rfl⟩ := List.length_eq_one_iff.mp h
    simpa only [run, List.map] using Action.fileReadLine_bare v
  | seekStart =>
    obtain ⟨v, rfl⟩ := List.length_eq_one_iff.mp h
    simpa only [run, List.map] using Action.seekStart_bare v
  | seekEnd =>
    obtain ⟨v, rfl⟩ := List.length_eq_one_iff.mp h
    simpa only [run, List.map] using Action.seekEnd_bare v
  | fileWriteText =>
    obtain ⟨v, w, rfl⟩ := List.length_eq_two.mp h
    simpa only [run, List.map] using Action.fileWriteText_bare v w
  | fileOpen =>
    obtain ⟨v, w, rfl⟩ := List.length_eq_two.mp h
    simpa only [run, List.map] using Action.fileOpen_bare v w
  | fileWrite =>
    obtain ⟨v, text, rfl⟩ := List.length_eq_two.mp h
    simpa only [run, List.map, Value.display_bare] using Action.fileWrite_bare v text.display
  | fileWriteLine =>
    obtain ⟨v, text, rfl⟩ := List.length_eq_two.mp h
    simpa only [run, List.map, Value.display_bare] using
      Action.fileWrite_bare v (text.display ++ "\r\n")

/-- With arguments that differ in their routines only, a native function does one thing. -/
theorem run_alike (n : Native) {as : List (Value ρ κ)} {bs : List (Value σ χ)}
    (h : as.map Value.bare = bs.map Value.bare) (ha : as.length = n.arity)
    (hb : bs.length = n.arity) :
    ∃ w, n.run as ha = Value.ofBare <$> w ∧ n.run bs hb = Value.ofBare <$> w := by
  have hl : (as.map Value.bare).length = n.arity := by rw [List.length_map, ha]
  refine ⟨n.run (as.map Value.bare) hl, n.run_bare as ha hl, ?_⟩
  rw [n.run_bare bs hb (h ▸ hl)]
  congr! 2
  exact h.symm

end Native

end Lox
