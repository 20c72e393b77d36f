import NriPrometheus.Labels
import NriPrometheus.Endpoints
import NriPrometheus.Rules
import NriPrometheus.Filter
import NriPrometheus.Rename
import NriPrometheus.Decorate
import NriPrometheus.CopyAttributes
import NriPrometheus.Processor
import NriPrometheus.Pipeline
import NriPrometheus.LabelFlow
import NriPrometheus.StageOrder
