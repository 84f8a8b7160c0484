import OnePass.Compile
import OnePass.Command
import OnePass.Main
import OnePass.Proofs.Run
import OnePass.Proofs.Action
import OnePass.Proofs.Log.Expr
import OnePass.Proofs.Log.Stmt
import OnePass.Proofs.Log.Program
import OnePass.Proofs.Registers.Ledger
import OnePass.Proofs.Registers.Phrases
import OnePass.Proofs.Registers.Linear
import OnePass.Proofs.Semantics.Machine
import OnePass.Proofs.Sound
import OnePass.Proofs.Semantics.Source
import OnePass.Proofs.Meaning.Expr
import OnePass.Proofs.Semantics.Reading
import OnePass.Proofs.Meaning.Reading
import OnePass.Proofs.Semantics.Steps
import OnePass.Proofs.Meaning.Layout
import OnePass.Proofs.Meaning.Simulation
import OnePass.Proofs.Meaning.Program
import OnePass.Proofs.Grammar.Basic
import OnePass.Proofs.Grammar.Soundness
import OnePass.Proofs.Grammar.Reads
import OnePass.Proofs.Grammar.Completeness.Expr
import OnePass.Proofs.Grammar.Completeness.Stmt
import OnePass.Proofs.Grammar.Completeness.Program
import OnePass.Proofs.Blocks
import OnePass.Proofs.Labels
import OnePass.Proofs.Returns.Flow
import OnePass.Proofs.Returns.Exact
import OnePass.Proofs.Trace.Composed
import OnePass.Proofs.Trace.Sink
import OnePass.Proofs.Calls.Globals
import OnePass.Proofs.Calls.Nesting
import OnePass.Proofs.Calls.Protocol
import OnePass.Proofs.Lossless
import OnePass.Proofs.Steps
import OnePass.Proofs.Rename.Syntax
import OnePass.Proofs.Rename.Mirror
import OnePass.Proofs.Rename.Passes
import OnePass.Proofs.Progress.Basic
import OnePass.Proofs.Progress.Passes
import OnePass.Proofs.Progress.Termination
import OnePass.Proofs.Feed.Basic
import OnePass.Proofs.Feed.Loops
import OnePass.Proofs.Feed.Expr
import OnePass.Proofs.Feed.Stmt
import OnePass.Proofs.Feed.Declarations
import OnePass.Proofs.Feed.Program
import OnePass.Proofs.Completion
import OnePass.Proofs.Feed.Pieces
import OnePass.Proofs.Rename.Resume
import OnePass.Proofs.Rename.Lines
import OnePass.Proofs.Continuation
import OnePass.Proofs.Locality
import OnePass.Proofs.Independence
import OnePass.Proofs.Emission
import OnePass.Proofs.Tables
import OnePass.Proofs.Names.Uses
import OnePass.Proofs.Names.Constants
import OnePass.Proofs.Names.Operands
import OnePass.Proofs.Listing.RoundTrip
import OnePass.Proofs.Names.Redefinitions
import OnePass.Proofs.Names.Resolution
import OnePass.Proofs.Splice.Basic
import OnePass.Proofs.Splice.Passes
import OnePass.Proofs.Recovery.Endings
import OnePass.Proofs.Recovery.Crossing
import OnePass.Proofs.Recovery.Passes
import OnePass.Proofs.Recovery.Semicolon
import OnePass.Proofs.Recovery.Gaps
import OnePass.Proofs.Recovery.Strays
import OnePass.Proofs.Recovery.Isolation
import OnePass.Proofs.Recovery.Insertions
import OnePass.Proofs.Recovery.Undefined
import OnePass.Proofs.Trace.Words
import OnePass.Proofs.Trace.Reading
import OnePass.Proofs.Trace.Pushes
import OnePass.Proofs.Trace.Faithful
import OnePass.Proofs.Parts
import OnePass.Proofs.Chains.Basic
import OnePass.Proofs.Chains.Accounts
import OnePass.Proofs.Chains.Expr
import OnePass.Proofs.Chains.Phrases
import OnePass.Proofs.Typing
import OnePass.Proofs.Headers
import OnePass.Proofs.Names.Reads
import OnePass.Proofs.Range
import OnePass.Proofs.Skips
import OnePass.Proofs.Listing.Rows
import OnePass.Proofs.Names.History
import OnePass.Proofs.Strings
import OnePass.Proofs.Queries
