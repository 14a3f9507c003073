import Litmus.CommandLine
import Litmus.Generator
import Litmus.Listing
import Litmus.Main
import Litmus.Proofs.Schedule
import Litmus.Report
import Litmus.Session.Execution
import Litmus.Session.Exploration
import Litmus.Session.Graph
import Litmus.Session.Memory
import Litmus.Session.Outcomes
import Litmus.Proofs.Image
import Litmus.Proofs.Enumeration
import Litmus.Proofs.Exploration
import Litmus.Proofs.Inclusion
import Litmus.Proofs.Keys
import Litmus.Proofs.Reference
import Litmus.Proofs.Replay
import Litmus.Proofs.StoreBuffer
import Litmus.Proofs.Continuation
import Litmus.Proofs.LastStore
import Litmus.Proofs.Observation
import Litmus.Proofs.Causality
import Litmus.Proofs.Sequential
import Litmus.Proofs.Violations
import Litmus.Proofs.Coincidence
import Litmus.Proofs.Parts
import Litmus.Proofs.Progress
import Litmus.Proofs.Composition
import Litmus.Proofs.Isolation
import Litmus.Proofs.Resumption
import Litmus.Proofs.Commutation
import Litmus.Proofs.Reordering
import Litmus.Proofs.DataIndependence
import Litmus.Proofs.FinalLoad
import Litmus.Proofs.Interleaving
import Litmus.Proofs.Words
import Litmus.Proofs.Grammar
import Litmus.Proofs.Reading
import Litmus.Proofs.Printing
import Litmus.Proofs.Refusal
import Litmus.Proofs.Unwinding
import Litmus.Proofs.Reporting
import Litmus.Proofs.Table
import Litmus.Proofs.Arguments
import Litmus.Proofs.Decoding
import Litmus.Proofs.Responses
import Litmus.Proofs.Alignment
import Litmus.Proofs.Budget
import Litmus.Proofs.Trail
import Litmus.Proofs.Waiting
import Litmus.Proofs.Additions
