import LetReturn.CommandLine
import LetReturn.Diagnostics
import LetReturn.FileTree
import LetReturn.HiddenCharacters
import LetReturn.Integers
import LetReturn.Journals
import LetReturn.JsonNumbers
import LetReturn.JsonReading
import LetReturn.JsonRecords
import LetReturn.JsonSkipping
import LetReturn.JsonStrings
import LetReturn.JsonText
import LetReturn.Main
import LetReturn.Parsing
import LetReturn.Programs
import LetReturn.Proofs.Attribution
import LetReturn.Proofs.Characters
import LetReturn.Proofs.CheckReports
import LetReturn.Proofs.Concatenation
import LetReturn.Proofs.Decimals
import LetReturn.Proofs.Decoding
import LetReturn.Proofs.Grammar
import LetReturn.Proofs.JsonGrammar
import LetReturn.Proofs.JsonScalars
import LetReturn.Proofs.JsonUniqueness
import LetReturn.Proofs.JsonValues
import LetReturn.Proofs.Lexemes
import LetReturn.Proofs.Lexing
import LetReturn.Proofs.LineAnswers
import LetReturn.Proofs.Lookahead
import LetReturn.Proofs.LoopRuns
import LetReturn.Proofs.PassedValues
import LetReturn.Proofs.PullOrder
import LetReturn.Proofs.QuotedLiterals
import LetReturn.Proofs.RecordReading
import LetReturn.Proofs.RefusedFiles
import LetReturn.Proofs.Relocation
import LetReturn.Proofs.RenderedTokens
import LetReturn.Proofs.Rendering
import LetReturn.Proofs.Reparsing
import LetReturn.Proofs.ReportLayout
import LetReturn.Proofs.ReportRoundTrip
import LetReturn.Proofs.ReportTexts
import LetReturn.Proofs.Respacing
import LetReturn.Proofs.Rounds
import LetReturn.Proofs.Shifting
import LetReturn.Proofs.StrayRuns
import LetReturn.Proofs.Streams
import LetReturn.Proofs.Tiling
import LetReturn.Proofs.TokenDumps
import LetReturn.Proofs.Truncation
import LetReturn.Proofs.WellFormedness
import LetReturn.Proofs.WholeTexts
import LetReturn.Quoting
import LetReturn.ReadLoop
import LetReturn.ReportReading
import LetReturn.Reports
import LetReturn.Scanning
import LetReturn.Sessions
import LetReturn.Tokens
import LetReturn.Utf8
