import ParaCL.Lib.Simulation
import ParaCL.Simulator.Safety
import ParaCL.Simulator.Scoping
import ParaCL.Codegen.Interpreted
import ParaCL.Codegen.Assigned
import ParaCL.Codegen.Renaming
import ParaCL.Codegen.Input
import ParaCL.Codegen.Slots
import ParaCL.Codegen.Terminators
import ParaCL.Codegen.ControlFlow
import ParaCL.Codegen.Arithmetic
import ParaCL.Codegen.Growth
import ParaCL.Codegen.Nested
import ParaCL.Codegen.Context
import ParaCL.Parser.Truncation
import ParaCL.Parser.Rendering
import ParaCL.Parser.ScopeCheck
import ParaCL.Parser.Recovery
import ParaCL.Parser.Diagnostics
import ParaCL.Driver.InputFiles
import ParaCL.Driver.ExitStatus
import ParaCL.Scopes.Discipline
import ParaCL.GraphDump.Picture
import ParaCL.Simulator.Exact
import ParaCL.Parser.Comments
import ParaCL.Parser.Documented
import ParaCL.Parser.RoundTrip
