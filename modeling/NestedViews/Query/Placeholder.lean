import NestedViews.Error
import NestedViews.Query.Segment

namespace NestedViews.Query

def placeholders (query : String) : Except SchemaFault (List Position) :=
  match Segment.cut .start query.toList with
  | .ok segments => .ok ((segments.filter (·.kind = .placeholder)).map Segment.start)
  | .error p => .error (.malformedQuery p.line p.column (p.offset = 0))

end NestedViews.Query
