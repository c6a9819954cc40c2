import Tablature.Main
import Tablature.Proofs.SymbolGlyph
import Tablature.Proofs.Cursor
import Tablature.Proofs.Adding
import Tablature.Proofs.Picture
import Tablature.Proofs.Role
import Tablature.Proofs.Groups
import Tablature.Proofs.Acceptance
import Tablature.Proofs.Numbering
import Tablature.Proofs.Beaming
import Tablature.Proofs.Heights
import Tablature.Proofs.Calls
import Tablature.Proofs.Invariant
import Tablature.Proofs.Nesting
import Tablature.Proofs.Grammar
import Tablature.Proofs.Elements
import Tablature.Proofs.Melodies
import Tablature.Proofs.Decoding
import Tablature.Proofs.EventOrder
import Tablature.Proofs.Playback
import Tablature.Proofs.Lines
import Tablature.Proofs.Stages
import Tablature.Proofs.Places
import Tablature.Proofs.Blame
import Tablature.Proofs.Canvas
import Tablature.Proofs.Decimals
import Tablature.Proofs.Entities
import Tablature.Proofs.Tags
import Tablature.Proofs.Markup
import Tablature.Proofs.Recording
import Tablature.Proofs.Joining
import Tablature.Proofs.Relocation
import Tablature.Proofs.Writing
import Tablature.Proofs.Pulling
import Tablature.Proofs.Deciphering
import Tablature.Proofs.PageBreaks
import Tablature.Proofs.Translation
import Tablature.Proofs.Pagination
import Tablature.Proofs.Failures
import Tablature.Proofs.Encoding
import Tablature.Proofs.Exporting
import Tablature.Proofs.Registers
import Tablature.Proofs.Rendering
import Tablature.Proofs.Range
import Tablature.Proofs.Printing
import Tablature.Proofs.Letters
import Tablature.Proofs.Lanes
import Tablature.Proofs.Retrying
import Tablature.Proofs.Atomicity
import Tablature.Proofs.PageTurns
import Tablature.Proofs.Blocks
import Tablature.Proofs.Transposition
import Tablature.Proofs.Delimiters
import Tablature.Proofs.Hundredths
import Tablature.Proofs.ForeignTags
import Tablature.Proofs.Wrapping
import Tablature.Proofs.Outcomes
import Tablature.Proofs.ShortForm
import Tablature.Proofs.WhiteKeys
import Tablature.Proofs.Listing
import Tablature.Proofs.Containment
import Tablature.Proofs.Pixels
import Tablature.Proofs.Suffixes
import Tablature.Proofs.TextFiles
