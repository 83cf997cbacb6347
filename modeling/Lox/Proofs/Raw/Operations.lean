import Lox.Proofs.Environment.Effects
import Lox.Proofs.Raw.Tables

/-!
Operations on the tables of environments. None of them misses a slot: they reply what operations on
environments reply, and lead to the tables of the environments that these lead to.
-/

namespace Lox

variable {α : Type}

namespace Tables

open Environments (Operation Reply)

/-- The environment so many links up. -/
def above? (ts : Array (Tables α)) (e : EnvId) : Nat → Option EnvId
  | 0 => some e
  | distance + 1 => (ts[e]?.bind (·.enclosing)).bind (above? ts · distance)

/-- Does something to the tables of an environment, unless it misses. -/
def on? (ts : Array (Tables α)) (e : EnvId) (f : Tables α → Option (Reply α × Tables α)) :
    Option (Reply α × Array (Tables α)) := do
  let (reply, t) ← f (← ts[e]?)
  return (reply, ts.setIfInBounds e t)

def look? (ts : Array (Tables α)) (e : EnvId) (f : Tables α → Lookup α) :
    Option (Reply α × Array (Tables α)) := on? ts e fun t => some (.known (f t), t)

def setSlot? (ts : Array (Tables α)) (e : EnvId) (slot : Nat) (a : α) :
    Option (Reply α × Array (Tables α)) :=
  on? ts e fun t => some (Prod.map .assigned id (t.setSlot slot a))

/-- What the operation replies, and the tables after it, unless it misses. -/
def perform? (ts : Array (Tables α)) : Operation α → Option (Reply α × Array (Tables α))
  | .nest e => some (.nested ts.size, ts.push { enclosing := some e })
  | .define e name a => on? ts e fun t => (t.define? name a).map (Prod.map .defined id)
  | .get e name => look? ts e (·.get name)
  | .assign e name a => on? ts e fun t => (t.assign? name a).map (Prod.map .assigned id)
  | .getSlot e slot => look? ts e (·.getSlot slot)
  | .setSlot e slot a => setSlot? ts e slot a
  | .getAt e distance slot => match above? ts e distance with
    | none => some (.known .missing, ts)
    | some e => look? ts e (·.getSlot slot)
  | .assignAt e distance slot a => match above? ts e distance with
    | none => some (.assigned false, ts)
    | some e => setSlot? ts e slot a

/-- The tables behind the operations, of which the last one comes first. -/
def behind? : List (Operation α) → Option (Array (Tables α))
  | [] => some #[{}]
  | op :: past => (behind? past).bind fun ts => (perform? ts op).map (·.2)

end Tables

namespace Environments

variable {past : List (Operation α)} {op : Operation α} {s : Environments α} {e : EnvId}
  {env : Environment α}

theorem above?_tables (s : Environments α) (e : EnvId) (distance : Nat) :
    Tables.above? s.tables e distance = s.ancestor? e distance := by
  induction distance generalizing e with
  | zero => rfl
  | succ distance ih =>
    have link : s.tables[e]?.bind (·.enclosing) = s.all[e]?.bind (·.enclosing) := by
      rw [getElem?_tables]
      cases s.all[e]? <;> rfl
    rw [Tables.above?, ancestor?, link, funext ih]

theorem on?_tables (he : s.all[e]? = some env) {f : Tables α → Option (Reply α × Tables α)}
    {g : Environment α → Environment α} {reply : Reply α}
    (hf : f env.tables = some (reply, (g env).tables)) :
    Tables.on? s.tables e f = some (reply, (s.modify e g).tables) := by
  rw [Tables.on?, getElem?_tables, he, tables_modify he]
  simp only [Option.map_some, bind, Option.bind_some, hf]
  rfl

theorem on?_tables_same (he : s.all[e]? = some env) {f : Tables α → Option (Reply α × Tables α)}
    {reply : Reply α} (hf : f env.tables = some (reply, env.tables)) :
    Tables.on? s.tables e f = some (reply, s.tables) := by
  rw [Tables.on?, getElem?_tables, he]
  simp only [Option.map_some, bind, Option.bind_some, hf, setIfInBounds_tables he]
  rfl

theorem look?_tables (he : s.all[e]? = some env) {f : Tables α → Lookup α}
    {g : Environment α → Lookup α} (hf : f env.tables = g env) :
    Tables.look? s.tables e f = some (.known ((s.all[e]?.map g).getD .missing), s.tables) := by
  rw [Tables.look?, on?_tables_same he (congrArg (fun l => some (Reply.known l, env.tables)) hf), he]
  rfl

theorem setSlot?_tables (he : s.all[e]? = some env) (slot : Nat) (a : α) :
    Tables.setSlot? s.tables e slot a = some ((s.settle (s.setSlot? e slot a)).1,
      (s.settle (s.setSlot? e slot a)).2.tables) := by
  have there : s.hasSlot e slot = env.hasSlot slot := by rw [hasSlot, he]; rfl
  have set := env.setSlot_tables slot a
  rw [setSlot?, there]
  split
  · next h =>
    rw [if_pos h] at set
    exact on?_tables he (congrArg (fun x => some (Prod.map Reply.assigned id x)) set)
  · next h =>
    rw [if_neg h] at set
    exact on?_tables_same he (congrArg (fun x => some (Prod.map Reply.assigned id x)) set)

theorem assign?_tables (he : s.all[e]? = some env) (name : String) (a : α) :
    Tables.perform? s.tables (.assign e name a) = some ((s.settle (s.assign? e name a)).1,
      (s.settle (s.assign? e name a)).2.tables) := by
  have named : s.slot? e name = env.slot? name := by rw [slot?, he]; rfl
  have assign := env.assign?_tables name a
  rw [assign?, named]
  cases hn : env.slot? name with
  | none =>
    rw [hn] at assign
    exact on?_tables_same he (congrArg (Option.map (Prod.map Reply.assigned id)) assign)
  | some slot =>
    rw [hn] at assign
    exact on?_tables he (congrArg (Option.map (Prod.map Reply.assigned id)) assign)

/-- No operation misses anything in the tables. -/
theorem Follows.perform?_tables (hs : Follows past s) (h : Possible (op :: past)) :
    Tables.perform? s.tables op = some ((s.perform op).1, (s.perform op).2.tables) := by
  obtain ⟨there, h⟩ := h
  have found {e : EnvId} (he : e < count past) : ∃ env, s.all[e]? = some env :=
    ⟨_, Array.getElem?_eq_getElem (hs.size ▸ he)⟩
  -- Links lead to earlier environments only, so that none of them leads nowhere.
  have above {e i : EnvId} {distance : Nat} (he : e < count past)
      (ha : s.ancestor? e distance = some i) : ∃ env, s.all[i]? = some env :=
    found (Nat.lt_of_le_of_lt (above?_le h (hs.ancestor?_eq e distance ▸ ha)) he)
  obtain ⟨env, he⟩ := found there
  cases op with
  | nest e =>
    have size : s.tables.size = s.fresh := Array.size_map
    rw [Tables.perform?, size, ← tables_nest]
    rfl
  | define e name a =>
    change s.all[e]? = some env at he
    have slot : s.slotFor e name = env.slotFor name := by rw [slotFor, he]; rfl
    rw [perform, slot]
    exact on?_tables he
      (congrArg (Option.map (Prod.map Reply.defined id)) (env.define?_tables name a))
  | get e name => exact look?_tables he (env.get_tables name)
  | getSlot e slot => exact look?_tables he (env.getSlot_tables slot)
  | assign e name a => exact assign?_tables he name a
  | setSlot e slot a => exact setSlot?_tables he slot a
  | getAt e distance slot =>
    rw [Tables.perform?, above?_tables, perform, getAt]
    cases ha : s.ancestor? e distance with
    | none => rfl
    | some i =>
      obtain ⟨env, hi⟩ := above there ha
      exact look?_tables hi (env.getSlot_tables slot)
  | assignAt e distance slot a =>
    rw [Tables.perform?, above?_tables, perform, assignAt?]
    cases ha : s.ancestor? e distance with
    | none => rfl
    | some i =>
      obtain ⟨env, hi⟩ := above there ha
      exact setSlot?_tables hi slot a

end Environments

end Lox
