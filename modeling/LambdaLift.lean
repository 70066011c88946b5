import LambdaLift.Main
import LambdaLift.Execution.Basic
import LambdaLift.Files.Tree
import LambdaLift.Tree.Walk
import LambdaLift.Proofs.Lifting.Unnested
import LambdaLift.Proofs.Lifting.Sufficiency
import LambdaLift.Proofs.Lifting.Modular
import LambdaLift.Proofs.Lifting.Augmentation
import LambdaLift.Proofs.Lifting.Hygiene
import LambdaLift.Proofs.Lifting.Behaviour
import LambdaLift.Proofs.Lifting.Again
import LambdaLift.Proofs.Token.Tiling
import LambdaLift.Proofs.Grammar.Termination
import LambdaLift.Proofs.Grammar.Placement
import LambdaLift.Proofs.Grammar.TokenStream
import LambdaLift.Proofs.Grammar.Faults
import LambdaLift.Proofs.Execution.Levels
import LambdaLift.Proofs.Execution.CallLimit
import LambdaLift.Proofs.Execution.Closures
import LambdaLift.Proofs.Lifting.Reuse
import LambdaLift.Proofs.Scope.Occurrences
import LambdaLift.Proofs.Transform.File
import LambdaLift.Proofs.Lifting.Log
import LambdaLift.Proofs.Lifting.CookedNames
import LambdaLift.Proofs.Token.Respaced
import LambdaLift.Proofs.Grammar.Chains
import LambdaLift.Proofs.Grammar.Arrows
import LambdaLift.Proofs.Grammar.NestingLimit
import LambdaLift.Proofs.Token.LineBreaks
import LambdaLift.Proofs.Token.LookAhead
import LambdaLift.Proofs.Execution.Bindings
import LambdaLift.Proofs.Execution.Rearranged
import LambdaLift.Proofs.Numeral.ReadBack
import LambdaLift.Proofs.Token.Literal
import LambdaLift.Proofs.Text.Lines
