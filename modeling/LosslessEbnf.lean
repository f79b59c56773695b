import LosslessEbnf.CommandLine
import LosslessEbnf.Json.Printer
import LosslessEbnf.Json.Reader
import LosslessEbnf.Main
import LosslessEbnf.Proofs.Completion
import LosslessEbnf.Proofs.Composition
import LosslessEbnf.Proofs.Coordinates
import LosslessEbnf.Proofs.Decoding
import LosslessEbnf.Proofs.Escaping
import LosslessEbnf.Proofs.Exchange
import LosslessEbnf.Proofs.Finality
import LosslessEbnf.Proofs.Heights
import LosslessEbnf.Proofs.Interruptions
import LosslessEbnf.Proofs.Listings
import LosslessEbnf.Proofs.LongestMatch
import LosslessEbnf.Proofs.Names
import LosslessEbnf.Proofs.NestingLimit
import LosslessEbnf.Proofs.Overflow
import LosslessEbnf.Proofs.PartialTrees
import LosslessEbnf.Proofs.Payloads
import LosslessEbnf.Proofs.Pulls
import LosslessEbnf.Proofs.Recognition
import LosslessEbnf.Proofs.Sizes
import LosslessEbnf.Proofs.Sources
import LosslessEbnf.Proofs.Tables
import LosslessEbnf.Proofs.Termination
import LosslessEbnf.Proofs.Traversal
import LosslessEbnf.Proofs.Trees
import LosslessEbnf.Tree.Exchange
