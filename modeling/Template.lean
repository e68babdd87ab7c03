import Template.Cli.Directory
import Template.Feed
import Template.Main
import Template.Playback
import Template.Proofs.Window
import Template.Proofs.Links
import Template.Proofs.Brackets
import Template.Proofs.Walk
import Template.Proofs.Building
import Template.Proofs.Parsing
import Template.Proofs.Escape
import Template.Proofs.Regular
import Template.Proofs.Normal
import Template.Proofs.Rescan
import Template.Proofs.Rendering
import Template.Proofs.RoundTrip
import Template.Proofs.Ancestry
import Template.Proofs.Attaching
import Template.Proofs.Pulling
import Template.Proofs.Turns
import Template.Proofs.Feeding
import Template.Proofs.Recording
import Template.Proofs.Halting
import Template.Proofs.Arena
import Template.Proofs.Causes
import Template.Proofs.Safety
import Template.Proofs.Placing
import Template.Proofs.Locality
import Template.Proofs.Concatenation
import Template.Proofs.Joining
import Template.Proofs.Finding
import Template.Proofs.Order
import Template.Proofs.Validity
import Template.Proofs.Breaks
import Template.Proofs.Erasing
import Template.Proofs.Reindenting
import Template.Proofs.LineEndings
import Template.Proofs.Bodies
import Template.Proofs.FixedPoints
import Template.Proofs.Likeness
import Template.Proofs.Inertness
import Template.Proofs.Messages
import Template.Proofs.Commands
import Template.Proofs.Ahead
import Template.Proofs.Leftmost
import Template.Proofs.Runs
import Template.Proofs.Decoding
import Template.Proofs.Quoting
import Template.Proofs.Attributes
import Template.Proofs.StartTags
import Template.Proofs.Values
import Template.Proofs.Numbers
import Template.Proofs.References
import Template.Proofs.Placeholders
import Template.Proofs.Terminators
import Template.Proofs.Replaying
import Template.Proofs.Recovery
import Template.Proofs.Pointing
import Template.Proofs.Spine
import Template.Proofs.Discerning
import Template.Proofs.Listings
