import RML.Proofs.Exhaustion
import RML.Proofs.Reply
import RML.Proofs.Switch
import RML.Proofs.Bounds
import RML.Proofs.Descent
import RML.Proofs.Positions
import RML.Proofs.Loader
import RML.Proofs.Transport
import RML.Proofs.Sectors
import RML.Proofs.LoadRounds
import RML.Proofs.Overlap
import RML.Proofs.Sizes
import RML.Proofs.Layout
import RML.Proofs.RootEnd
import RML.Proofs.Listing
import RML.Proofs.EndMarker
import RML.Proofs.Columns
import RML.Proofs.Search
import RML.Proofs.Names
import RML.Proofs.Inert
import RML.Proofs.Slots
import RML.Proofs.Numerals
import RML.Proofs.Format
import RML.Proofs.Shell
import RML.Proofs.Strings
import RML.Proofs.Keyboard
import RML.Proofs.Images
import RML.Proofs.ShellRuns
import RML.Proofs.StringMem
