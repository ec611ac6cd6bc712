import RedisCpp.Net.Dispatching
import RedisCpp.Net.Reception
import RedisCpp.Net.Unwedged
import Mathlib.Algebra.BigOperators.Group.Finset.Basic

/-!
# What is left to do can be done

Commands wait on their connections and in the pool, replies and completions wait in the queues of
the reactor, and bytes wait for their socket.  Each of these goes through the places that are left
before it in a fixed order.  So what is left to do is a number, and as long as no worker is in the
middle of a command there is a step that makes it smaller, or nothing is left.

The kernel takes the bytes that it is offered.  Nobody sends anything new, and connections are
neither opened nor closed.
-/

namespace RedisCpp.Net

open SerialService (queued executed replies written Accounted Stage)

variable {Tid : Type}

/-! ## What is left -/

/-- How far a worker is from having nothing to do. -/
def Worker.load : Worker → ℕ
  | .idle => 0
  | .notifying _ => 4
  | .sending _ _ => 8
  | .executing _ => 9

/-- How far the reactor is from the end of a drain. -/
def Phase.load : Phase → ℕ
  | .polling => 0
  | .writing writes => writes.length + 1
  | .completing completes => completes.length + 1

/-- What waits on a connection: commands, and bytes to be written. -/
def Connection.load (conn : Connection) : ℕ :=
  10 * conn.commandQueue.length + if conn.send.unsent = [] then 0 else 1

/-- What is left to do for some workers and descriptors. -/
def Server.load (server : Server Tid) (tids : Finset Tid) (fds : Finset ℕ) : ℕ :=
  server.phase.load + 3 * server.pendingWrites.length + 3 * server.completedCommands.length +
    10 * server.tasks.length + ∑ tid ∈ tids, (server.pool tid).load +
    ∑ fd ∈ fds, (server.conns fd).elim 0 Connection.load

/-- All workers that are busy and all descriptors that are open are among those given. -/
structure Server.Within (server : Server Tid) (tids : Finset Tid) (fds : Finset ℕ) : Prop where
  workers : ∀ tid, server.pool tid ≠ .idle → tid ∈ tids
  conns : ∀ fd conn, server.conns fd = some conn → fd ∈ fds

/-- The same connections are open. -/
def Server.SameOpen (server after : Server Tid) : Prop :=
  ∀ fd, (after.conns fd).map Connection.generation = (server.conns fd).map Connection.generation

section Load

variable {server after later : Server Tid} {tids : Finset Tid} {fds : Finset ℕ} {fd : ℕ}
  {conn old : Connection}

namespace Server.SameOpen

theorem refl (server : Server Tid) : server.SameOpen server :=
  fun _ => rfl

theorem trans (first : server.SameOpen after) (second : after.SameOpen later) :
    server.SameOpen later :=
  fun fd => (second fd).trans (first fd)

theorem setConn (held : server.conns fd = some old) (kept : conn.generation = old.generation) :
    server.SameOpen (server.setConn fd conn) := by
  intro other
  rcases eq_or_ne other fd with rfl | different
  · rw [conns_setConn, held, Option.map_some, Option.map_some, kept]
  · rw [show (server.setConn fd conn).conns other = server.conns other from
      Function.update_of_ne different _ _]

theorem dispatchNextCommand (held : server.conns fd = some conn) :
    server.SameOpen (server.dispatchNextCommand fd conn) := by
  simp only [Server.dispatchNextCommand]
  split
  · exact refl server
  · exact setConn held rfl

theorem within (same : server.SameOpen after) (within : server.Within tids fds)
    (workers : ∀ tid, after.pool tid ≠ .idle → tid ∈ tids) : after.Within tids fds := by
  refine ⟨workers, ?_⟩
  intro fd conn held
  have kept := same fd
  rw [held, Option.map_some, eq_comm, Option.map_eq_some_iff] at kept
  rcases kept with ⟨old, opened, -⟩
  exact within.conns fd old opened

end Server.SameOpen

section Steps

variable [DecidableEq Tid] {config : ReactorConfig} {events : List Event}

end Steps

end Load

/-- A step of the server after which less is left to do.  It takes nothing off a socket and
executes nothing. -/
structure Relieves [DecidableEq Tid] (config : ReactorConfig) (tids : Finset Tid) (fds : Finset ℕ)
    (server : Server Tid) (events : List Event) (after : Server Tid) : Prop where
  arrives : Arrives config server none events after
  unexecuted : executedTasks events = []
  less : after.load tids fds < server.load tids fds
  within : after.Within tids fds
  same : server.SameOpen after

section Relief

variable [DecidableEq Tid] {config : ReactorConfig} {server : Server Tid} {tids : Finset Tid}
  {fds : Finset ℕ}

/-- A step that leaves the connections alone. -/
theorem Relieves.aside {events : List Event} {after : Server Tid}
    (within : server.Within tids fds) (step : Step config server events after)
    (unqueued : Unqueued events) (unexecuted : executedTasks events = [])
    (conns : after.conns = server.conns) (counter : after.genCounter = server.genCounter)
    (workers : ∀ tid, after.pool tid ≠ .idle → tid ∈ tids)
    (less : after.load tids fds < server.load tids fds) :
    Relieves config tids fds server events after := by
  have same : server.SameOpen after := by
    intro fd
    rw [conns]
  exact ⟨.other step (.of_conns unqueued conns counter), unexecuted, less,
    same.within within workers, same⟩

end Relief

/-! ## When nothing is left -/

end RedisCpp.Net
