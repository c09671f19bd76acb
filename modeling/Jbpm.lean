import Jbpm.Lib.Run
import Jbpm.Lib.Selector
import Jbpm.Lib.Hashtable
import Jbpm.Lib.Forest
import Jbpm.Java.Lang
import Jbpm.Java.Throws
import Jbpm.Jms.OutstandingRequest
import Jbpm.Jms.IntegrationControl
import Jbpm.Integration.Correlation
import Jbpm.Jms.RequestRouting
import Jbpm.Jms.ListenerRegistry
import Jbpm.Jms.ListenerInvariant
import Jbpm.Jms.ListenerRuns
import Jbpm.Bpel.ProcessInstance
import Jbpm.Bpel.ProcessInstanceStarter
import Jbpm.Bpel.EnteringScript
import Jbpm.Bpel.StarterRefinement
import Jbpm.Bpel.ScopeState
import Jbpm.Bpel.Compensation
import Jbpm.Bpel.CompensationOrder
import Jbpm.Graph.SuperState
import Jbpm.Graph.SuperStateEvents
import Jbpm.Graph.TokenTree
import Jbpm.Graph.ForkJoin
import Jbpm.Graph.ForkJoinSteps
import Jbpm.Graph.ForkJoinOrder
import Jbpm.Svc.JbpmContext
import Jbpm.Command.CommandService
import Jbpm.Lib.Optimistic
import Jbpm.Job.Job
import Jbpm.Job.JobAttempt
import Jbpm.Job.JobExecutor
import Jbpm.Job.JobExecutorInvariant
import Jbpm.Job.ExclusiveJobs
import Jbpm.Job.JobRuns
import Jbpm.Db.GraphSession
import Jbpm.Db.ProcessForest
import Jbpm.Db.DeleteProcessInstance
import Jbpm.Graph.ForkJoinLoop
import Jbpm.Bpel.Flow
import Jbpm.Bpel.FlowJoin
import Jbpm.Context.Converter
import Jbpm.Context.VariableInstance
import Jbpm.Context.ContextInstance
import Jbpm.Context.VariableScope
import Jbpm.Taskmgmt.TaskInstance
import Jbpm.Taskmgmt.TaskNode
import Jbpm.Taskmgmt.TaskNodeSync
import Jbpm.Graph.Milestone
import Jbpm.Graph.MilestoneRelease
import Jbpm.Sim.ResourcePool
import Jbpm.Sim.ResourceConservation
import Jbpm.Lib.Elapsed
import Jbpm.Calendar.BusinessCalendar
import Jbpm.Calendar.BusinessTime
import Jbpm.Calendar.BusinessAddition
import Jbpm.Calendar.BusinessExactness
import Jbpm.Calendar.Duration
import Jbpm.Calendar.BusinessSubtraction
import Jbpm.Calendar.RepeatingTimer
import Jbpm.Graph.Suspension
import Jbpm.Svc.ContextStacks
import Jbpm.Svc.DbPersistence
import Jbpm.Svc.ContextClose
import Jbpm.Taskmgmt.TaskCompletion
import Jbpm.Jpdl.DefinitionXml
import Jbpm.Jpdl.RoundTrip
import Jbpm.Designer.Diagram
import Jbpm.Designer.DiagramMirror
import Jbpm.Graph.TransitionCache
import Jbpm.Job.TimerTransition
import Jbpm.Graph.ImplicitTermination
import Jbpm.Graph.TokenPath
import Jbpm.Graph.ForkNames
import Jbpm.Lib.BackReference
import Jbpm.Taskmgmt.PooledActors
import Jbpm.Graph.Interleaving
import Jbpm.Graph.HierarchicalName
import Jbpm.Graph.ExceptionHandlers
import Jbpm.Graph.EventLocks
import Jbpm.Designer.NodesMirror
import Jbpm.Bpel.FaultHandlers
import Jbpm.Xml.QNames
import Jbpm.Bpel.RepetitiveActivity
import Jbpm.Bpel.LeavingActivity
import Jbpm.Bpel.PathElimination
import Jbpm.Lib.TreeAddress
import Jbpm.Xml.Dom
import Jbpm.Xml.ElementCopy
import Jbpm.Xml.ObjectValue
import Jbpm.Sublang.XPathEvaluator
import Jbpm.Sublang.XPathCreation
import Jbpm.Variable.XmlType
import Jbpm.Sublang.XPathUpdate
import Jbpm.Bpel.Assign
import Jbpm.Bpel.AssignFault
import Jbpm.Bpel.AssignCopy
import Jbpm.Integration.SoapCopy
import Jbpm.Integration.ServiceCatalog
import Jbpm.Bpel.If
import Jbpm.Bpel.PickEvents
import Jbpm.Bpel.ImplicitTransitions
import Jbpm.Bpel.SequenceRuns
import Jbpm.Wsdl.ImportGraph
import Jbpm.Integration.EndpointReference
import Jbpm.Deploy.DescriptorXml
import Jbpm.Deploy.ScopeMatcher
import Jbpm.Java.DecimalFormat
import Jbpm.Calendar.DurationText
import Jbpm.Xml.Duration
import Jbpm.Xml.DateTime
import Jbpm.Bpel.Alarm
import Jbpm.Lib.Traversal
import Jbpm.Svc.CascadeSave
import Jbpm.Bytes.ByteArray
import Jbpm.Mail.Recipients
import Jbpm.Designer.XmlAdapter
import Jbpm.Designer.XmlEdits
import Jbpm.Job.EjbTimers
import Jbpm.Job.EjbTimerRuns
import Jbpm.Graph.RelativePath
import Jbpm.Designer.TransitionPath
import Jbpm.Designer.Renaming
import Jbpm.Java.Contract
import Jbpm.Configuration.ObjectFactory
import Jbpm.Configuration.CreatedObjects
import Jbpm.Graph.NodeCollections
import Jbpm.Jpdl.LiveReading
import Jbpm.Graph.EventPropagation
import Jbpm.Context.VariableMapping
import Jbpm.Command.ChangeVersion
