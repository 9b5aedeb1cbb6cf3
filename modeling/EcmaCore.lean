import EcmaCore.Description
import EcmaCore.Display
import EcmaCore.Equality
import EcmaCore.Reference
import EcmaCore.Proofs.Change
import EcmaCore.Proofs.Lawful
import EcmaCore.Proofs.Operation
import EcmaCore.Proofs.Run
import EcmaCore.Proofs.Lock
import EcmaCore.Proofs.Assignment
import EcmaCore.Proofs.Recording
import EcmaCore.Proofs.Strictness
import EcmaCore.Proofs.Acyclic
import EcmaCore.Proofs.Keys
import EcmaCore.Proofs.Origin
import EcmaCore.Proofs.Wrapper
import EcmaCore.Proofs.Inextensible
import EcmaCore.Proofs.Abort
import EcmaCore.Proofs.Arrival
import EcmaCore.Proofs.RoundTrip
import EcmaCore.Proofs.Readable
import EcmaCore.Proofs.ScopeRun
import EcmaCore.Proofs.SplitScope
import EcmaCore.Proofs.Promises
import EcmaCore.Proofs.Encoding
import EcmaCore.Proofs.Nearest
import EcmaCore.Proofs.Literal
import EcmaCore.Proofs.Grammar
import EcmaCore.Proofs.NumberText
import EcmaCore.Proofs.Definition
import EcmaCore.Proofs.Repetition
import EcmaCore.Proofs.Independence
import EcmaCore.Proofs.CreationOrder
import EcmaCore.Proofs.Reach
import EcmaCore.Proofs.Permission
import EcmaCore.Proofs.OnePlace
import EcmaCore.Proofs.Primitive
import EcmaCore.Proofs.LooseEquality
import EcmaCore.Proofs.Arithmetic
import EcmaCore.Proofs.Words
import EcmaCore.Proofs.Hexadecimal
import EcmaCore.Proofs.Linking
import EcmaCore.Proofs.Boxing
import EcmaCore.Proofs.Fields
import EcmaCore.Proofs.Surrogates
import EcmaCore.Proofs.BitPatterns
import EcmaCore.Proofs.Equalities
