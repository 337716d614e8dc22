import HttpdConf.Main
import HttpdConf.Session
import HttpdConf.Proofs.Chunks
import HttpdConf.Proofs.StrayCharacters
import HttpdConf.Proofs.Tokenization
import HttpdConf.Proofs.Layout
import HttpdConf.Proofs.Agreement
import HttpdConf.Proofs.LineOriented
import HttpdConf.Proofs.SavePoints
import HttpdConf.Proofs.Operations
import HttpdConf.Proofs.PendingFiles
import HttpdConf.Proofs.Patches
import HttpdConf.Proofs.Junctions
import HttpdConf.Proofs.SingleEdits
import HttpdConf.Proofs.UniqueReadings
import HttpdConf.Proofs.Misreadings
import HttpdConf.Proofs.ExactEdits
import HttpdConf.Proofs.Grammar
import HttpdConf.Proofs.PathOrder
import HttpdConf.Proofs.Writing
import HttpdConf.Proofs.WriteReach
import HttpdConf.Proofs.Ancestry
import HttpdConf.Proofs.EarliestErrors
import HttpdConf.Proofs.Exclusion
import HttpdConf.Proofs.Searches
import HttpdConf.Proofs.LineEndings
import HttpdConf.Proofs.Concatenation
import HttpdConf.Proofs.Statements
import HttpdConf.Proofs.Assignments
import HttpdConf.Proofs.Policies
import HttpdConf.Proofs.SetDirective
import HttpdConf.Proofs.FileTexts
import HttpdConf.Proofs.Memories
import HttpdConf.Proofs.Resemblance
import HttpdConf.Proofs.Replies
import HttpdConf.Proofs.Actions
import HttpdConf.Proofs.Queries
import HttpdConf.Proofs.NormalForms
import HttpdConf.Proofs.Frames
import HttpdConf.Proofs.Portraits
import HttpdConf.Proofs.Refusals
import HttpdConf.Proofs.FileRoots
import HttpdConf.Proofs.ErrorPositions
import HttpdConf.Proofs.Origins
import HttpdConf.Proofs.Composition
