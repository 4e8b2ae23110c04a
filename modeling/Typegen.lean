import Typegen.Main
import Typegen.Command.Declared
import Typegen.Proofs.Preservation
import Typegen.Proofs.Culprits
import Typegen.Proofs.Respelling
import Typegen.Proofs.Stability
import Typegen.Proofs.ExactWriting
import Typegen.Proofs.AllOrNothing
import Typegen.Proofs.TargetEntries
import Typegen.Proofs.Refusals
import Typegen.Proofs.Optionality
import Typegen.Proofs.TypeTexts
import Typegen.Proofs.CodeLiterals
import Typegen.Proofs.ExactImports
import Typegen.Proofs.FieldTags
import Typegen.Proofs.Docstrings
import Typegen.Proofs.ImportClashes
import Typegen.Proofs.RootNames
import Typegen.Proofs.RegistrationOutcome
import Typegen.Proofs.UnknownKeys
import Typegen.Proofs.SnakeCase
import Typegen.Proofs.Traversals
