import ModuleLens.Catalog
import ModuleLens.Catalog.Disk
import ModuleLens.Delta
import ModuleLens.Document
import ModuleLens.Fifo
import ModuleLens.Import.Edge
import ModuleLens.Linker
import ModuleLens.Linker.Crew
import ModuleLens.Linker.Descent
import ModuleLens.Linker.Errand
import ModuleLens.Location.Path
import ModuleLens.Location.Percent
import ModuleLens.Location.Uri
import ModuleLens.Node
import ModuleLens.Node.Diagnostics
import ModuleLens.Node.Draft
import ModuleLens.Node.Link
import ModuleLens.Node.Navigation
import ModuleLens.Node.Reach
import ModuleLens.Outline
import ModuleLens.Outline.Engine
import ModuleLens.Proofs.Catalog
import ModuleLens.Proofs.Linker.Calls
import ModuleLens.Proofs.Linker.Coherence
import ModuleLens.Proofs.Linker.Confluence
import ModuleLens.Proofs.Linker.Delays
import ModuleLens.Proofs.Linker.Errands
import ModuleLens.Proofs.Linker.Holding
import ModuleLens.Proofs.Linker.Interleaving
import ModuleLens.Proofs.Linker.Once
import ModuleLens.Proofs.Linker.Outdated
import ModuleLens.Proofs.Linker.Progress
import ModuleLens.Proofs.Linker.Recursion
import ModuleLens.Proofs.Linker.Schedules
import ModuleLens.Proofs.Linker.Service
import ModuleLens.Proofs.Linker.Slots
import ModuleLens.Proofs.Linker.Solo
import ModuleLens.Proofs.Linker.Turns
import ModuleLens.Proofs.Linker.Waiting
import ModuleLens.Proofs.Lists
import ModuleLens.Proofs.Node.Delays
import ModuleLens.Proofs.Node.Drafts
import ModuleLens.Proofs.Node.Linking
import ModuleLens.Proofs.Node.Plain
import ModuleLens.Proofs.Node.Reach
import ModuleLens.Proofs.Session.Calls
import ModuleLens.Proofs.Session.Shadowing
import ModuleLens.Proofs.Session.Transparency
import ModuleLens.Proofs.SharedStore
import ModuleLens.Proofs.Sorting
import ModuleLens.Session
import ModuleLens.Settings
import ModuleLens.Settings.Feature
import ModuleLens.Settings.Json
import ModuleLens.SharedStore
import ModuleLens.SharedStore.Threads
import ModuleLens.Sketch
import ModuleLens.Sorting
import ModuleLens.SyntaxTree
import ModuleLens.Table
import ModuleLens.Text
import ModuleLens.Text.Alphabetic
import ModuleLens.Text.Class
import ModuleLens.Text.Extending
import ModuleLens.Text.Numeral
import ModuleLens.Text.Numeric
import ModuleLens.Text.Point
import ModuleLens.Text.Position
import ModuleLens.Text.Quoted
import ModuleLens.Text.Scale
import ModuleLens.Text.Unprintable
import ModuleLens.Text.Utf8
import ModuleLens.TreeStore
import ModuleLens.WorkQueue
import ModuleLens.Proofs.SharedStore.Makers
import ModuleLens.Proofs.SharedStore.History
import ModuleLens.Proofs.SharedStore.Crowds
import ModuleLens.Proofs.Linker.Levels
import ModuleLens.Proofs.Node.Unidentified
import ModuleLens.Proofs.Node.Recovery
import ModuleLens.Proofs.Delta
import ModuleLens.Proofs.TreeStore
import ModuleLens.Proofs.Linker.Returns
import ModuleLens.Proofs.Session.Snapshots
import ModuleLens.Proofs.Text.Lines
import ModuleLens.Proofs.Text.Positions
import ModuleLens.Proofs.Document
import ModuleLens.Proofs.Linker.Builds
import ModuleLens.Proofs.Session.Editors
import ModuleLens.Proofs.Session.Isolation
import ModuleLens.Proofs.Text.Slices
import ModuleLens.Proofs.Document.Backwards
import ModuleLens.Proofs.Delta.Minimal
import ModuleLens.Proofs.TreeStore.Replay
import ModuleLens.Proofs.Node.Seats
import ModuleLens.Proofs.Text.Extents
import ModuleLens.Proofs.Node.Nesting
import ModuleLens.Proofs.Node.Innermost
import ModuleLens.Proofs.Node.Included
import ModuleLens.Proofs.Node.Followed
import ModuleLens.Proofs.Linker.Announced
import ModuleLens.Proofs.Node.Trimmed
import ModuleLens.Proofs.Node.Archive
import ModuleLens.Proofs.Linker.Forgotten
import ModuleLens.Proofs.Node.Nearest
import ModuleLens.Proofs.Outline.Words
import ModuleLens.Proofs.Sketch
import ModuleLens.Proofs.Outline.Members
import ModuleLens.Proofs.Outline.Fitting
import ModuleLens.Proofs.Node.Faults
import ModuleLens.Proofs.Outline.Required
import ModuleLens.Proofs.Outline.Reports
import ModuleLens.Proofs.Location.Canonical
import ModuleLens.Proofs.Text.Aligned
import ModuleLens.Proofs.Session.Rejected
import ModuleLens.Proofs.Location.Schemes
import ModuleLens.Proofs.Text.Points
import ModuleLens.Proofs.WorkQueue
import ModuleLens.Proofs.WorkQueue.Rounds
import ModuleLens.Proofs.Settings.Objects
import ModuleLens.Proofs.Node.Blank
import ModuleLens.Proofs.Node.Listed
import ModuleLens.Proofs.Node.Identities
