import SystemProgramming.QueueServer.Steps

/-! # Whose answers a client receives

All clients use one reply queue. Each receives the answers to its own request only, as long as no
client opens the queue while another one is under way; two clients that overlap take each other's
messages.
-/

namespace SystemProgramming.QueueServer

open Lib

/-- Every response a client has received was sent in answer to its own request. -/
def OwnReplies (s : State) : Prop := ∀ x ∈ s.received, x.2 = x.1

/-- In a run in which clients open the reply queue one at a time every reply is its receiver's. -/
theorem replies_own {files : List UInt8 → Option (List UInt8)} {pathnames : List Pathname}
    {es : List Event} {s : State} (ran : exec step (start files pathnames) es = some s)
    (alone : AllSteps step Alone (start files pathnames) es) : OwnReplies s :=
  (run_oneByOne ran alone).own

/-- A file nobody has. -/
def missing : Pathname := ⟨[120], by decide⟩

/-- A client asks for it and gets the failure message. -/
def failingClient (i : ℕ) : List Event := [.client i, .client i, .client i, .server, .child i, .child i,
  .child i, .client i]

/-- One client after the other. -/
theorem two_clients_own : ∃ s, exec step (start (fun _ => none) [missing, missing])
      (failingClient 0 ++ .client 1 :: failingClient 1) = some s ∧ OwnReplies s := by
  have ran : exec step (start (fun _ => none) [missing, missing])
      (failingClient 0 ++ .client 1 :: failingClient 1) = some _ :=
    (Option.some_get (by decide +kernel)).symm
  exact ⟨_, ran, replies_own ran (by decide +kernel)⟩

/-- The second client opens the queue before the first one is served and takes its message. -/
theorem overlapping_not_own : ¬ ∀ files pathnames es s,
    exec step (start files pathnames) es = some s → OwnReplies s := by
  intro all
  have ran : exec step (start (fun _ => none) [missing, missing])
      [.client 0, .client 1, .client 1, .client 0, .client 1, .client 1, .server, .child 0, .child 0,
        .child 0, .client 1] = some _ := (Option.some_get (by decide +kernel)).symm
  exact absurd (all _ _ _ _ ran (1, 0) (by decide +kernel)) (by decide)

end SystemProgramming.QueueServer
