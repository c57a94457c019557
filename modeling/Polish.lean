import Polish.Operator
import Polish.Token
import Polish.Mismatch
import Polish.Blank
import Polish.Source
import Polish.Lexer
import Polish.Run
import Polish.Yard
import Polish.Postfix
import Polish.Session
import Polish.Buffer
import Polish.Survey
import Polish.CommandLine
import Polish.Tree
import Polish.Grammar
import Polish.Nesting
import Polish.Spelling
import Polish.Main
import Polish.Proofs.Wording
import Polish.Proofs.Reading
import Polish.Proofs.Balance
import Polish.Proofs.Listing
import Polish.Proofs.StackOrder
import Polish.Proofs.Emission
import Polish.Proofs.EmissionOrder
import Polish.Proofs.Spelled
import Polish.Proofs.ReadBack
import Polish.Proofs.Cutting
import Polish.Proofs.Cursors
import Polish.Proofs.Substitution
import Polish.Proofs.Conservation
import Polish.Proofs.Log
import Polish.Proofs.Joining
import Polish.Proofs.Answer
import Polish.Proofs.Division
import Polish.Proofs.Continuation
import Polish.Proofs.Spacing
import Polish.Proofs.Footprint
import Polish.Proofs.Ranking
import Polish.Proofs.Settling
