import Abacus.Command
import Abacus.Command.Arguments
import Abacus.Json.Chunk
import Abacus.Main
import Abacus.Proofs.Command.Agreement
import Abacus.Proofs.Command.Output
import Abacus.Proofs.Command.Requests
import Abacus.Proofs.Command.Session
import Abacus.Proofs.Compiler.Building
import Abacus.Proofs.Compiler.Demand
import Abacus.Proofs.Compiler.Diagnosis
import Abacus.Proofs.Compiler.Emission
import Abacus.Proofs.Compiler.Lines
import Abacus.Proofs.Compiler.Listing
import Abacus.Proofs.Compiler.Numbers
import Abacus.Proofs.Interpreter.History
import Abacus.Proofs.Interpreter.Layout
import Abacus.Proofs.Interpreter.ReadBack
import Abacus.Proofs.Json.RoundTrip
import Abacus.Proofs.Machine.Faults
import Abacus.Proofs.Machine.Growth
import Abacus.Proofs.Machine.Trace
import Abacus.Proofs.Sample.Limits
import Abacus.Proofs.Token.Dump
import Abacus.Proofs.Token.LongestMatch
import Abacus.Proofs.Token.NormalForm
import Abacus.Proofs.Token.Tiling
import Abacus.Sample
import Abacus.Token.Scanner
