import Pascaline.Main
import Pascaline.Proofs.Reading.FirstError
import Pascaline.Proofs.Reading.Insert
import Pascaline.Proofs.Reading.Unparse
import Pascaline.Proofs.Tree.Bindings
import Pascaline.Proofs.Tree.Inlining
import Pascaline.Proofs.Command.Agreement
import Pascaline.Proofs.Graph.Decode
import Pascaline.Proofs.Token.Rename
import Pascaline.Proofs.Tree.Rename
import Pascaline.Proofs.Reading.Rename
import Pascaline.Proofs.Token.Position
import Pascaline.Proofs.Tree.Cut
import Pascaline.Proofs.Reading.Alike
import Pascaline.Proofs.Reading.Exchange
import Pascaline.Proofs.Reading.Classify
import Pascaline.Proofs.Graph.Forest
import Pascaline.Proofs.Reading.Essence
import Pascaline.Proofs.Reading.Nest
import Pascaline.Proofs.Token.Calls
import Pascaline.Proofs.Descent.Agreement
import Pascaline.Proofs.Command.Files
import Pascaline.Proofs.Graph.Escape
