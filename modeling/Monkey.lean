import Monkey.Program.Equality
import Monkey.Eval.Depth
import Monkey.Main
import Monkey.Proofs.RoundTrip
import Monkey.Proofs.Eval.Frames
import Monkey.Proofs.Value.Operators
import Monkey.Proofs.Eval.Simulation
import Monkey.Proofs.Eval.Invariant
import Monkey.Proofs.Eval.ErrorFree
import Monkey.Proofs.Eval.Erasure
import Monkey.Proofs.Eval.Renaming
import Monkey.Proofs.Session.Isolation
import Monkey.Proofs.Session.Append
import Monkey.Proofs.Token.Grammar
import Monkey.Proofs.Reading.Termination
import Monkey.Proofs.Reading.Semicolon
import Monkey.Proofs.Session.WellScoped
import Monkey.Proofs.Reading.Requests
import Monkey.Proofs.Eval.FunctionText
import Monkey.Proofs.Eval.Unread
import Monkey.Proofs.Session.Conversation
import Monkey.Proofs.Value.Table
import Monkey.Proofs.Eval.Ends
import Monkey.Proofs.Eval.Context
import Monkey.Proofs.Eval.Calculation
import Monkey.Proofs.Eval.HashLiteral
import Monkey.Proofs.Session.History
import Monkey.Proofs.Eval.FunctionFree
import Monkey.Proofs.Eval.Yields
import Monkey.Proofs.Value.Equality
import Monkey.Proofs.Programs.Fibonacci
import Monkey.Proofs.Programs.MapReduce
import Monkey.Proofs.Reading.Failures
import Monkey.Proofs.Session.Complaint
