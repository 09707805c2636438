import Tsconfig.Main
import Tsconfig.Proofs.Decimal.Rounding
import Tsconfig.Proofs.Decimal.Shortest
import Tsconfig.Proofs.Json.Lexeme
import Tsconfig.Proofs.Json.Numbers
import Tsconfig.Proofs.Json.RoundTrip
import Tsconfig.Proofs.Json.Reading
import Tsconfig.Proofs.Descriptor.WellFormed
import Tsconfig.Proofs.Descriptor.RoundTrip
import Tsconfig.Proofs.Descriptor.Object
import Tsconfig.Proofs.Descriptor.Reread
import Tsconfig.Proofs.FileSystem.Reaches
import Tsconfig.Proofs.Path
import Tsconfig.Proofs.FileSystem.Replaced
import Tsconfig.Proofs.FileSystem.Change
import Tsconfig.Proofs.FileSystem.Names
import Tsconfig.Proofs.Descriptor.Saved
import Tsconfig.Proofs.Descriptor.Footprint
import Tsconfig.Proofs.Descriptor.Atomic
import Tsconfig.Proofs.Glob.Listing
import Tsconfig.Proofs.Project.Loading
import Tsconfig.Proofs.Project.Again
import Tsconfig.Proofs.Options
import Tsconfig.Proofs.Options.Typed
import Tsconfig.Proofs.Options.Settings
import Tsconfig.Proofs.Project.Creation
import Tsconfig.Proofs.Project.Stages
import Tsconfig.Proofs.Project.Rewriting
import Tsconfig.Proofs.Project.Footprint
import Tsconfig.Proofs.Project.Leftover
import Tsconfig.Proofs.Dependency.BreadthFirst
import Tsconfig.Proofs.Dependency.Files
import Tsconfig.Proofs.Dependency.Rescan
import Tsconfig.Proofs.Path.Pieces
import Tsconfig.Proofs.Path.Extension
import Tsconfig.Proofs.Glob.Selected
import Tsconfig.Proofs.FileSystem.LongPath
import Tsconfig.Proofs.Project.Location
import Tsconfig.Proofs.Project.Paths
import Tsconfig.Proofs.Project.Invariants
import Tsconfig.Proofs.Dependency.Turns
import Tsconfig.Proofs.Project.Standalone
import Tsconfig.Proofs.Source.Mentions
import Tsconfig.Proofs.Source.Tokens
import Tsconfig.Proofs.Source.Directives
import Tsconfig.Proofs.Glob.Deciding
import Tsconfig.Proofs.Glob.Roots
import Tsconfig.Proofs.Glob.Defaults
import Tsconfig.Proofs.Options.Encodings
import Tsconfig.Proofs.Path.Resolving
import Tsconfig.Proofs.Path.Relative
import Tsconfig.Proofs.Project.Nearest
import Tsconfig.Proofs.Project.Occupied
import Tsconfig.Proofs.Path.Marked
import Tsconfig.Proofs.FormatOptions
import Tsconfig.Proofs.Descriptor.Ordered
import Tsconfig.Proofs.Source.Lines
