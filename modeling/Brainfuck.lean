import Brainfuck.Main
import Brainfuck.Proofs.Acceptance
import Brainfuck.Proofs.Barrier
import Brainfuck.Proofs.BigStep
import Brainfuck.Proofs.Characters
import Brainfuck.Proofs.CommandLine
import Brainfuck.Proofs.Escapes
import Brainfuck.Proofs.Lua.Agreement
import Brainfuck.Proofs.Lua.Functions
import Brainfuck.Proofs.Lua.Indentation
import Brainfuck.Proofs.Multiplication
import Brainfuck.Proofs.Pairing
import Brainfuck.Proofs.Positions
import Brainfuck.Proofs.Rendering
import Brainfuck.Proofs.Shell.Continuation
import Brainfuck.Proofs.Shell.Splitting
import Brainfuck.Proofs.Spelling
import Brainfuck.Proofs.Travel
