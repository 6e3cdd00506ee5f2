import GenDepsMd.Python.Value
import GenDepsMd.Python.Utf8
import GenDepsMd.Json.Scanner
import GenDepsMd.Json.Grammar
import GenDepsMd.Json.Leaves
import GenDepsMd.Json.Soundness
import GenDepsMd.Json.Completeness
import GenDepsMd.Json.Errors
import GenDepsMd.Json.Append
import GenDepsMd.Json.Keys
import GenDepsMd.GoList.Loop
import GenDepsMd.GoList.Concat
import GenDepsMd.Main.Graph
import GenDepsMd.Main.Raises
import GenDepsMd.Main.Report
