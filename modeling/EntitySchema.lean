import EntitySchema.Directory
import EntitySchema.Main
import EntitySchema.Proofs.Canonical.RoundTrip
import EntitySchema.Proofs.Lexer.LayoutRule
import EntitySchema.Proofs.Edits.Regions
import EntitySchema.Proofs.Lexer.Tiling
import EntitySchema.Proofs.Lexer.Transfer
import EntitySchema.Proofs.Parser.Accepts
import EntitySchema.Proofs.Parser.WellFormed
import EntitySchema.Proofs.Rendering.RoundTrip
import EntitySchema.Proofs.Rerun
import EntitySchema.Reader
import EntitySchema.Proofs.Edits.Comments
import EntitySchema.Proofs.Edits.Reformatting
import EntitySchema.Proofs.Edits.FinalNewline
import EntitySchema.Lexer.Source
import EntitySchema.Proofs.Edits.CarriageReturns
import EntitySchema.Proofs.Edits.Concatenation
import EntitySchema.Proofs.Edits.Appending
import EntitySchema.Proofs.Streaming
import EntitySchema.Proofs.Drafting
import EntitySchema.Proofs.Hosts
import EntitySchema.Proofs.Effects
import EntitySchema.Proofs.Canonical.Preserved
import EntitySchema.Proofs.Lexer.Onward
import EntitySchema.Proofs.Lexer.Faults
import EntitySchema.Proofs.FieldTypes
import EntitySchema.Proofs.Blame
import EntitySchema.ByteReader
import EntitySchema.Proofs.Hashing
import EntitySchema.Proofs.Numerals
import EntitySchema.Proofs.Arguments.WholeFlags
import EntitySchema.Proofs.Reading.Account
import EntitySchema.Proofs.Canonical.Cursor
import EntitySchema.Proofs.Parser.MetaBlocks
