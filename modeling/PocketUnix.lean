import PocketUnix.Main
import PocketUnix.Proofs.Calendar.Month
import PocketUnix.Proofs.Command.Directories
import PocketUnix.Proofs.Command.Frames
import PocketUnix.Proofs.Command.NewDirectories
import PocketUnix.Proofs.Command.PathParts
import PocketUnix.Proofs.Command.Removal
import PocketUnix.Proofs.Command.Searches
import PocketUnix.Proofs.Command.Superuser
import PocketUnix.Proofs.Command.SystemCommands
import PocketUnix.Proofs.Command.TreeCommands
import PocketUnix.Proofs.Command.Unsupported
import PocketUnix.Proofs.Command.WorkingDirectory
import PocketUnix.Proofs.Completion.CommandPlaces
import PocketUnix.Proofs.Completion.CompletedPaths
import PocketUnix.Proofs.Console.Printing
import PocketUnix.Proofs.Editor.Chords
import PocketUnix.Proofs.Editor.Edits
import PocketUnix.Proofs.Editor.Modes
import PocketUnix.Proofs.Editor.Requests
import PocketUnix.Proofs.Filter.Minimality
import PocketUnix.Proofs.Filter.Programs
import PocketUnix.Proofs.Glob
import PocketUnix.Proofs.Json.Filters
import PocketUnix.Proofs.Modes
import PocketUnix.Proofs.PromptLine.Recall
import PocketUnix.Proofs.Session.ConsistentTables
import PocketUnix.Proofs.Session.FileWrites
import PocketUnix.Proofs.Session.NamedSessions
import PocketUnix.Proofs.Session.QuotedLines
import PocketUnix.Proofs.Session.Resaving
import PocketUnix.Proofs.Session.SavedText
import PocketUnix.Proofs.Session.SortedLines
import PocketUnix.Proofs.Session.TextColumns
import PocketUnix.Proofs.Session.Transcripts
import PocketUnix.Proofs.Session.TypedLines
import PocketUnix.Proofs.Shell.Parts
import PocketUnix.Proofs.Tree.Links
