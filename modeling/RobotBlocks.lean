import RobotBlocks.Main
import RobotBlocks.Proofs.Editor.Reload
import RobotBlocks.Proofs.Graph.Normal
import RobotBlocks.Proofs.Module.RoundTrip
import RobotBlocks.Proofs.Session.Loading
import RobotBlocks.Proofs.Graph.Sections
import RobotBlocks.Proofs.Graph.Deletion
import RobotBlocks.Proofs.Session.Placement
import RobotBlocks.Proofs.Session.Sectioned
import RobotBlocks.Proofs.Session.Consistency
import RobotBlocks.Proofs.Editor.Unmodified
import RobotBlocks.Proofs.Code.Reload
import RobotBlocks.Proofs.Editor.Recorded
import RobotBlocks.Proofs.Code.Emission
import RobotBlocks.Proofs.Code.Emitted
import RobotBlocks.Proofs.Code.Causes
import RobotBlocks.Proofs.Code.Warned
import RobotBlocks.Proofs.Code.Linkage
import RobotBlocks.Proofs.Code.Receivers
import RobotBlocks.Proofs.Code.Names
import RobotBlocks.Proofs.Session.Names
import RobotBlocks.Proofs.Session.Draining
import RobotBlocks.Proofs.Session.Limit
import RobotBlocks.Proofs.Session.Seating
import RobotBlocks.Proofs.Session.Renaming
import RobotBlocks.Proofs.Session.Callers
import RobotBlocks.Proofs.Store.Operations
import RobotBlocks.Proofs.Store.Twins
import RobotBlocks.Proofs.Editor.Copied
import RobotBlocks.Proofs.Editor.Vanished
import RobotBlocks.Proofs.Graph.Arrangement
import RobotBlocks.Proofs.Graph.Values
import RobotBlocks.Proofs.Graph.Refusal
import RobotBlocks.Proofs.ParameterEditor.Composition
import RobotBlocks.Proofs.Graph.Enforcement
import RobotBlocks.Proofs.Graph.Listing
import RobotBlocks.Proofs.Session.Calling
import RobotBlocks.Proofs.ParameterEditor.Decomposition
import RobotBlocks.Proofs.Session.Unedited
import RobotBlocks.Proofs.Graph.Apart
import RobotBlocks.Proofs.Session.Orphans
import RobotBlocks.Proofs.ParameterEditor.Numbering
import RobotBlocks.Proofs.Session.Parameters
import RobotBlocks.Proofs.Text.Keywords
import RobotBlocks.Proofs.Code.Numerals
import RobotBlocks.Proofs.Code.Imported
import RobotBlocks.Proofs.Code.Layout
import RobotBlocks.Proofs.Code.Ending
import RobotBlocks.Proofs.Code.Imports
import RobotBlocks.Proofs.Editor.Saving
import RobotBlocks.Proofs.Module.Path
import RobotBlocks.Proofs.Text.Quoted
import RobotBlocks.Proofs.Store.Grouping
import RobotBlocks.Proofs.Session.Order
import RobotBlocks.Proofs.Graph.Supply
