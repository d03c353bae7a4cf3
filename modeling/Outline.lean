import Outline.Files.Tree
import Outline.Main
import Outline.Proofs.Compiler.Outcome
import Outline.Proofs.Parser.Passage
import Outline.Proofs.Parser.Walk
import Outline.Proofs.Parser.Descent
import Outline.Proofs.Parser.Declarations
import Outline.Proofs.Parser.Level
import Outline.Proofs.Parser.Indexed
import Outline.Proofs.Lexer.Extent
import Outline.Proofs.Lexer.Offsets
import Outline.Proofs.Parser.Loops
import Outline.Proofs.SyntaxTree.Safety
import Outline.Proofs.Lexer.Locality
import Outline.Proofs.Lexer.Reading
import Outline.Proofs.Lexer.Tiling
import Outline.Proofs.Lexer.Relexing
import Outline.Proofs.Layout.Page
import Outline.Proofs.Parser.Acceptance
import Outline.Proofs.Layout.Spelling
import Outline.Proofs.Layout.Spelled
import Outline.Proofs.Parser.Bodies
import Outline.Proofs.Parser.Members
import Outline.Proofs.Parser.Types
import Outline.Proofs.Parser.Files
import Outline.Proofs.SyntaxTree.Reports
import Outline.Proofs.Build.RoundTrip
import Outline.Proofs.Forest.Recovered
import Outline.Proofs.Layout.Blanks
import Outline.Proofs.Build.Calls
import Outline.Proofs.SyntaxTree.Versions
import Outline.Proofs.Compiler.Versions
import Outline.Proofs.Json.Written
import Outline.Proofs.Module.Manifest
import Outline.Proofs.Module.Image
import Outline.Proofs.Compiler.Order
import Outline.Proofs.Compiler.Phases
import Outline.Proofs.Parser.Recorded
import Outline.Proofs.Frame.Bodies
import Outline.Proofs.Frame.Declarations
import Outline.Proofs.Frame.Members
import Outline.Proofs.Frame.Namespaces
import Outline.Proofs.Parser.Places
import Outline.Proofs.Frame.Files
import Outline.Proofs.SyntaxTree.Composition
import Outline.Proofs.Parser.Braces
import Outline.Proofs.Code.Body
import Outline.Proofs.Code.Declarator
import Outline.Proofs.Code.Statement
import Outline.Proofs.Code.Property
import Outline.Proofs.SyntaxTree.Enclosure
import Outline.Proofs.SyntaxTree.Forms
import Outline.Proofs.Code.Enum
import Outline.Proofs.Parser.Usings
import Outline.Proofs.SyntaxTree.Usings
import Outline.Proofs.Renaming.Basic
import Outline.Proofs.Renaming.Names
import Outline.Proofs.Renaming.Bodies
import Outline.Proofs.Renaming.Declarations
import Outline.Proofs.Renaming.Members
import Outline.Proofs.Renaming.Files
import Outline.Proofs.Parser.Aliases
import Outline.Proofs.SyntaxTree.Aliases
import Outline.Proofs.Lexer.Resemblance
import Outline.Proofs.Lexer.Respelling
import Outline.Proofs.SyntaxTree.Verbatim
import Outline.Proofs.SyntaxTree.Locations
import Outline.Proofs.Parser.Sites
import Outline.Proofs.Lexer.Names
import Outline.Proofs.SyntaxTree.Names
import Outline.Proofs.Compiler.Codes
import Outline.Proofs.Compiler.Duplicates
import Outline.Proofs.Compiler.EntryPoint
import Outline.Proofs.Compiler.Marks
import Outline.Proofs.Lexer.Strings
import Outline.Proofs.Parser.Mentions
import Outline.Proofs.Lexer.Holes
import Outline.Proofs.Lexer.Lines
import Outline.Proofs.Lexer.OneLine
import Outline.Proofs.SyntaxTree.Verdict
import Outline.Proofs.Command.Declared
import Outline.Proofs.Lexer.Escaping
import Outline.Proofs.Compiler.References
import Outline.Proofs.Parser.Symbols
import Outline.Proofs.SyntaxTree.Symbols
import Outline.Proofs.Parser.Locals
import Outline.Proofs.Parser.Warnings
import Outline.Proofs.Code.Local
import Outline.Proofs.Layout.Rows
import Outline.Proofs.Files.Tree
import Outline.Proofs.Files.Writings
import Outline.Proofs.Source.Position
import Outline.Proofs.Parser.Words
