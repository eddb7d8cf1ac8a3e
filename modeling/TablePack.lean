import TablePack.Buffer.Parser
import TablePack.ByteLiteral
import TablePack.Command.Run
import TablePack.Compaction.Event
import TablePack.LineBuffer
import TablePack.Main
import TablePack.Packed.Encoding
import TablePack.Proofs.Account
import TablePack.Proofs.Balance
import TablePack.Proofs.Boundaries
import TablePack.Proofs.Buffer.Parser
import TablePack.Proofs.Canonical
import TablePack.Proofs.Crlf.Compaction
import TablePack.Proofs.Edits
import TablePack.Proofs.Faults
import TablePack.Proofs.Generated.Compaction
import TablePack.Proofs.Inert
import TablePack.Proofs.Integers
import TablePack.Proofs.Layout
import TablePack.Proofs.Meaning
import TablePack.Proofs.Nesting
import TablePack.Proofs.Positions
import TablePack.Proofs.Stable
import TablePack.Proofs.Targets
import TablePack.Proofs.Workers
import TablePack.Table
import TablePack.Token.Scanner
import TablePack.Tree.Build
