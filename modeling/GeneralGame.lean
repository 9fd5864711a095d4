import GeneralGame.Circuit.Draft
import GeneralGame.Circuit.Encoding
import GeneralGame.Circuit.Machine
import GeneralGame.Json.Stored
import GeneralGame.Nim
import GeneralGame.Player
import GeneralGame.Proofs.Failing
import GeneralGame.Proofs.Play.Run
import GeneralGame.Proofs.Search.Undisturbed
import GeneralGame.Proofs.Search.Returns
import GeneralGame.Proofs.Search.Window
import GeneralGame.Proofs.Search.Choice
import GeneralGame.Proofs.Search.Heeds
import GeneralGame.Proofs.Search.Anytime
import GeneralGame.Proofs.Search.Within
import GeneralGame.Proofs.Search.Agreement
import GeneralGame.Proofs.Search.Punctual
import GeneralGame.Proofs.Search.Playout
import GeneralGame.Proofs.Search.Lookahead
import GeneralGame.Proofs.Search.Sampling
import GeneralGame.Proofs.Search.LastPoll
import GeneralGame.Proofs.Search.Fuel
import GeneralGame.Proofs.Search.Polls
import GeneralGame.Proofs.Play.Requests
import GeneralGame.Proofs.Tree.Table
import GeneralGame.Proofs.Tree.Descent
import GeneralGame.Proofs.Tree.Expansion
import GeneralGame.Proofs.Tree.Iteration
import GeneralGame.Proofs.Tree.Backup
import GeneralGame.Proofs.Tree.Growth
import GeneralGame.Proofs.Tree.Selection
import GeneralGame.Proofs.Circuit.Marks
import GeneralGame.Proofs.Circuit.Order
import GeneralGame.Proofs.Circuit.Check
import GeneralGame.Proofs.Circuit.Solution
import GeneralGame.Proofs.Circuit.Evaluation
import GeneralGame.Proofs.Player.Decision
import GeneralGame.Proofs.Player.Patience
import GeneralGame.Proofs.Game.Legal
import GeneralGame.Proofs.Search.Completes
import GeneralGame.Proofs.Search.Finite
import GeneralGame.Proofs.Search.Waiting
import GeneralGame.Proofs.Game.Value
import GeneralGame.Proofs.Player.Security
import GeneralGame.Proofs.Circuit.Accepted
import GeneralGame.Proofs.Circuit.Ranked
import GeneralGame.Proofs.Draft.Sketch
import GeneralGame.Proofs.Draft.Extend
import GeneralGame.Proofs.Draft.Steps
import GeneralGame.Proofs.Nim.Sketch
import GeneralGame.Proofs.Draft.Assembly
import GeneralGame.Proofs.Draft.Play
import GeneralGame.Proofs.Nim.Refinement
import GeneralGame.Proofs.Search.Merit
import GeneralGame.Proofs.Search.Replies
import GeneralGame.Proofs.Search.Exits
import GeneralGame.Proofs.Player.SelfPlay
import GeneralGame.Proofs.Nim.Solution
import GeneralGame.Proofs.Circuit.Codec
import GeneralGame.Proofs.Circuit.Persistence
import GeneralGame.Proofs.Circuit.Lookups
import GeneralGame.Proofs.Circuit.Faults
import GeneralGame.Proofs.Circuit.Robust
import GeneralGame.Proofs.Circuit.Faithful
import GeneralGame.Proofs.Draft.Declarations
import GeneralGame.Proofs.Draft.Account
import GeneralGame.Proofs.Draft.Acceptance
import GeneralGame.Proofs.Circuit.Arrangement
import GeneralGame.Proofs.Circuit.Cycles
import GeneralGame.Proofs.Search.Turns
import GeneralGame.Proofs.Player.Isolation
import GeneralGame.Proofs.Game.Odometer
import GeneralGame.Proofs.Player.Contract
import GeneralGame.Proofs.Search.LevelLimit
import GeneralGame.Proofs.Search.MoreTime
import GeneralGame.Proofs.Player.DeepLimit
import GeneralGame.Proofs.Search.Rounds
import GeneralGame.Proofs.Search.Candidates
import GeneralGame.Proofs.Search.Depths
import GeneralGame.Proofs.Circuit.Goals
import GeneralGame.Proofs.Game.Enumeration
import GeneralGame.Proofs.Search.Interrupted
import GeneralGame.Proofs.Search.Estimates
import GeneralGame.Proofs.Game.Pinned
import GeneralGame.Proofs.Tree.Attribution
import GeneralGame.Proofs.Play.Meets
import GeneralGame.Proofs.Play.RandomPlay
import GeneralGame.Proofs.Play.Lockstep
import GeneralGame.Proofs.Game.Honored
import GeneralGame.Proofs.Search.Tries
import GeneralGame.Proofs.Player.Declared
import GeneralGame.Proofs.Random.Forks
import GeneralGame.Proofs.Tree.Preference
import GeneralGame.Proofs.Search.FailHard
