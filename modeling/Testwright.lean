import Testwright.Source.FilePath
import Testwright.Source.SuccessRate
import Testwright.Stored.Plan
import Testwright.Stored.Settings
import Testwright.TestSource
import Testwright.Proofs.Extraction
import Testwright.Proofs.Testing.Merging
import Testwright.Proofs.Testing.Naming
import Testwright.Proofs.Convention.BaseClass
import Testwright.Proofs.Testing.Appended
import Testwright.Proofs.Testing.Completeness
import Testwright.Proofs.Convention.LineReading
import Testwright.Proofs.Convention.Rewriting
import Testwright.Proofs.Header.Reference
import Testwright.Proofs.Header.Upper
import Testwright.Proofs.Testing.Converted
import Testwright.Proofs.Text.Unread
import Testwright.Proofs.Text.Clean
import Testwright.Proofs.Text.LineStructure
import Testwright.Proofs.Testing.LiveImports
import Testwright.Proofs.Testing.Exactness
import Testwright.Proofs.Convention.OwnClause
import Testwright.Proofs.Convention.ExtendedHeader
import Testwright.Proofs.Convention.Commented
import Testwright.Proofs.Testing.LeadingPackage
import Testwright.Proofs.Testing.LastBrace
import Testwright.Proofs.Testing.LineBreaks
import Testwright.Proofs.Batch
import Testwright.Proofs.Declaration.Accessor
import Testwright.Proofs.Declaration.StatementForm
import Testwright.Proofs.Testing.LocalVariables
import Testwright.Proofs.Declaration.ConstructorExclusion
import Testwright.Proofs.Declaration.Layouts
import Testwright.Proofs.Header.ImportPath
import Testwright.Proofs.Header.RemovedImport
import Testwright.Proofs.Surface.TypeToken
import Testwright.Proofs.Declaration.Resolution
import Testwright.Proofs.Stored.Field
import Testwright.Proofs.Stored.StoredForm
import Testwright.Proofs.Declaration.PrivateField
import Testwright.Proofs.Header.LineRemoval
import Testwright.Proofs.Testing.PlainName
