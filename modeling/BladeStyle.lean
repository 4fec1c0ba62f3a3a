import BladeStyle.Main
import BladeStyle.Editing.Clipboard
import BladeStyle.Proofs.CommandLine.Check
import BladeStyle.Proofs.CompactLayout
import BladeStyle.Proofs.Editing.Clipboard
import BladeStyle.Proofs.Editing.Limit
import BladeStyle.Proofs.Editing.Locality
import BladeStyle.Proofs.Editing.ReadBack
import BladeStyle.Proofs.Kind.Packed
import BladeStyle.Proofs.Parsing.CommentRegions
import BladeStyle.Proofs.Parsing.Creation
import BladeStyle.Proofs.LayoutBlindness
import BladeStyle.Proofs.Parsing.Extension
import BladeStyle.Proofs.Parsing.Failures
import BladeStyle.Proofs.Parsing.Literals
import BladeStyle.Proofs.Registry.Registration
import BladeStyle.Proofs.Source.CommentPlaces
import BladeStyle.Proofs.Style.Completeness
import BladeStyle.Proofs.Style.KeptShape
