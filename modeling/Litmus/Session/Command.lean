import Litmus.Fault

/-!
# Sessions

A session drives a state by a list of commands and logs what each of them does. A command is a call,
a block that is entered, runs further commands and is left, or a stop.

A call that fails is logged and the session goes on. A stop ends every block around it: each is left
in turn, without a word in the log, and the session goes on with the next of its own commands. If
leaving a block fails on the way, this fault takes the place of the stop, and the commands after the
block are run as usual.
-/

namespace Litmus.Session

/-- A command over calls `C` and blocks `B`. -/
inductive Command (C B : Type) where
  /-- A single call. -/
  | call (c : C)
  /-- A block around further commands. -/
  | block (b : B) (body : List (Command C B))
  /-- The end of all blocks around it. -/
  | stop (message : String)

/-- How a state of type `σ` reacts to calls and blocks. Entering a block yields a token that is
handed back when the block is left. All reactions but leaving yield a reply. -/
structure Machine (σ C B T R : Type) where
  /-- The effect of a call. -/
  call : C → σ → σ × Except Fault R
  /-- The effect of entering a block. -/
  enter : B → σ → σ × Except Fault (T × R)
  /-- The effect of leaving a block. -/
  leave : B → T → σ → σ × Except Fault Unit

/-- A command without the body of its block. -/
inductive Head (C B : Type) where
  /-- A single call. -/
  | call (c : C)
  /-- A block. -/
  | block (b : B)
  /-- A stop. -/
  | stop

/-- What is logged of a command. -/
inductive Event (R : Type) where
  /-- A call has returned. -/
  | returned (r : R)
  /-- A block has been entered. -/
  | entered (r : R)
  /-- A block has been left. -/
  | left
  /-- A call, the entry of a block or its exit has failed. -/
  | failed (f : Fault)
  /-- A stop has ended the command. -/
  | stopped (message : String)

/-- An entry of the log: the command, what is logged of it, and the state afterwards. -/
structure Entry (σ C B R : Type) where
  /-- The command. -/
  head : Head C B
  /-- What happened. -/
  event : Event R
  /-- The state afterwards. -/
  after : σ

/-- How far a list of commands has come. -/
structure Progress (σ C B R : Type) where
  /-- What was logged. -/
  log : List (Entry σ C B R)
  /-- The state reached. -/
  state : σ
  /-- The message of the stop that is on its way outwards. -/
  stop : Option String

variable {σ C B T R : Type}

/-- A command without the body of its block. -/
def Command.head : Command C B → Head C B
  | call c => .call c
  | block b _ => .block b
  | stop _ => .stop

mutual

/-- Runs one command. -/
def Command.run (m : Machine σ C B T R) : Command C B → σ → Progress σ C B R
  | .call c, s =>
    match m.call c s with
    | (s', .ok r) => ⟨[⟨.call c, .returned r, s'⟩], s', none⟩
    | (s', .error f) => ⟨[⟨.call c, .failed f, s'⟩], s', none⟩
  | .stop message, s => ⟨[], s, some message⟩
  | .block b body, s =>
    match m.enter b s with
    | (s', .error f) => ⟨[⟨.block b, .failed f, s'⟩], s', none⟩
    | (s', .ok (token, r)) =>
      let inner := Command.runAll m body s'
      let log := ⟨.block b, .entered r, s'⟩ :: inner.log
      match m.leave b token inner.state, inner.stop with
      | (s'', .error f), _ => ⟨log ++ [⟨.block b, .failed f, s''⟩], s'', none⟩
      | (s'', .ok ()), none => ⟨log ++ [⟨.block b, .left, s''⟩], s'', none⟩
      | (s'', .ok ()), some message => ⟨log, s'', some message⟩

/-- Runs commands in order, up to a stop. -/
def Command.runAll (m : Machine σ C B T R) : List (Command C B) → σ → Progress σ C B R
  | [], s => ⟨[], s, none⟩
  | c :: rest, s =>
    let first := Command.run m c s
    match first.stop with
    | some message => ⟨first.log, first.state, some message⟩
    | none =>
      let others := Command.runAll m rest first.state
      ⟨first.log ++ others.log, others.state, others.stop⟩

end

/-- Runs a whole session. A stop that reaches the outside is logged for the command that it
ended. -/
def run (m : Machine σ C B T R) : List (Command C B) → σ → List (Entry σ C B R)
  | [], _ => []
  | c :: rest, s =>
    let first := Command.run m c s
    let stopped : List (Entry σ C B R) := match first.stop with
      | some message => [⟨c.head, .stopped message, first.state⟩]
      | none => []
    first.log ++ stopped ++ run m rest first.state

end Litmus.Session
