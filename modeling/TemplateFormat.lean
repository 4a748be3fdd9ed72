import TemplateFormat.Cli.Disk
import TemplateFormat.Main
import TemplateFormat.Print.Entry
import TemplateFormat.Proofs.Cli.Files
import TemplateFormat.Proofs.Diagnostic
import TemplateFormat.Proofs.Doc.Chunks
import TemplateFormat.Proofs.Doc.FlatMode
import TemplateFormat.Proofs.Doc.Joined
import TemplateFormat.Proofs.Doc.Merge
import TemplateFormat.Proofs.Doc.Texts
import TemplateFormat.Proofs.Doc.Width
import TemplateFormat.Proofs.Idempotence
import TemplateFormat.Proofs.Markup.Again
import TemplateFormat.Proofs.Markup.Bounds
import TemplateFormat.Proofs.Markup.Indentation
import TemplateFormat.Proofs.Markup.LineStructure
import TemplateFormat.Proofs.Placeholder.Unique
import TemplateFormat.Proofs.Print.Contain
import TemplateFormat.Proofs.Print.Edges
import TemplateFormat.Proofs.Print.Kept
import TemplateFormat.Proofs.Print.Lockstep
import TemplateFormat.Proofs.Print.OneLine
import TemplateFormat.Proofs.Print.Preformatted
import TemplateFormat.Proofs.Print.Region
import TemplateFormat.Proofs.Print.Spelling
import TemplateFormat.Proofs.Structure
import TemplateFormat.Proofs.Token.Complete
import TemplateFormat.Proofs.Token.Lookahead
import TemplateFormat.Proofs.Token.Printed
import TemplateFormat.Proofs.Tree.Balance
import TemplateFormat.Proofs.Tree.Geometry
